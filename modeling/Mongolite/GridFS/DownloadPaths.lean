import Mongolite.GridFS.Names
import Mongolite.Library.Disk

/-! # Where downloads go

`mongo_gridfs_download` joins a directory and the names of files, normalizes the
paths, makes the directories that are missing and writes the files. A name may
lead out of the directory, and two names to one place.
-/

namespace Mongolite

open Disk

/-- What a GridFS gives for a name or a query: nothing, a content that breaks off or, without an
error, does not end, or a content and the description of its file. -/
inductive Fetched where
  | missing (error : String)
  | broken (error : Option String)
  | content (data : List UInt8) (doc : FileDoc)
  deriving DecidableEq, Repr

def fetchFile (validate : String → Bool) (queryMatches : String → FileDoc → Bool) (s : GridServer)
    (x : String) : Fetched :=
  match lookUp validate queryMatches s x with
  | .error e => .missing e
  | .ok f =>
    match downloadChunks s (f.doc.length + 1) [] f with
    | some (.ok data) => .content data f.doc
    | some (.error e) => .broken (some e)
    | none => .broken none

theorem fetchFile_content_iff {validate : String → Bool} {queryMatches : String → FileDoc → Bool}
    {s : GridServer} {x : String} {data : List UInt8} {doc : FileDoc} :
    fetchFile validate queryMatches s x = .content data doc ↔
      mongoGridfsDownload validate queryMatches s x = some (.ok (data, doc)) := by
  rw [mongoGridfsDownload, withFile_eq_lookUp, fetchFile]
  cases lookUp validate queryMatches s x with
  | error e => simp [andThen]
  | ok f =>
    rcases hdown : downloadChunks s (f.doc.length + 1) [] f with _ | _ | out
    · simp [andThen, hdown]
    · simp [andThen, hdown]
    · simp [andThen, hdown]

/-- `normalizePath` with `mustWork = FALSE`: a path that does not exist is left as it is. -/
def normalizePath (D : Disk) (path : String) : String := (D.realpath path).elim path pathText

def filePath (dir name : String) : String := dir ++ "/" ++ name

def downloadPaths (D : Disk) (names path : List String) : Except String (List String) :=
  if path.length = 1 ∧ path.all D.isDir then
    .ok (names.map fun name =>
      normalizePath D (normalizePath D (filePath (path.headD "") name)))
  else if names.length ≠ path.length then
    .error ("Argument 'path' must be an existing dir or vector of filenames equal length as " ++
      "'name'")
  else .ok (path.map (normalizePath D))

/-- The loop over `dir.create(dirname(x), recursive = TRUE)`. -/
def createAll (D : Disk) (paths : List String) : Disk × List Location :=
  paths.foldl (fun x path => makeDirs (x.1.start path) (dirComponents path) x) (D, [])

/-- The disk, and what was made and written so far: directories, and the places of the files with
the names that they were written for. -/
structure Downloads where
  disk : Disk
  created : List Location
  written : List (String × Location)

def Downloads.write (st : Downloads) (name : String) (loc : Location)
    (content : Option (List UInt8)) : Downloads :=
  { st with disk := st.disk.write loc content, written := st.written ++ [(name, loc)] }

/-- The loop over names and paths; the result `none` means that a content did not end. -/
def downloadAll (fetch : String → Fetched) :
    List (String × String) → List FileDoc → Downloads →
      Option (Except String (List FileDoc)) × Downloads
  | [], out, st => (some (.ok out), st)
  | (name, path) :: files, out, st =>
    match fetch name, st.disk.fopen path with
    | .missing e, _ => (some (.error e), st)
    | _, none => (some (.error ("Failed to open file " ++ path)), st)
    | .broken e, some loc => (e.map .error, st.write name loc none)
    | .content data doc, some loc =>
      downloadAll fetch files (out ++ [doc]) (st.write name loc (some data))

/-- `mongo_gridfs_download`: the files and the paths that it returns, or its error, and what it
leaves on the disk. -/
def downloadFiles (fetch : String → Fetched) (D : Disk) (names path : List String) :
    Option (Except String (List FileDoc × List String)) × Downloads :=
  match downloadPaths D names path with
  | .error e => (some (.error e), ⟨D, [], []⟩)
  | .ok paths =>
    let x := createAll D paths
    let r := downloadAll fetch (names.zip paths) [] ⟨x.1, x.2, []⟩
    (r.1.map (·.map fun out => (out, paths)), r.2)

def Apart (written : List (String × Location)) : Prop :=
  written.Pairwise fun w w' => w.1 ≠ w'.1 → w.2 ≠ w'.2

instance (written : List (String × Location)) : Decidable (Apart written) :=
  inferInstanceAs (Decidable (written.Pairwise fun w w' => w.1 ≠ w'.1 → w.2 ≠ w'.2))

/-- Whatever a download makes or writes is in the directory, different names go to different places,
and where it returns every path holds the file of its name. -/
structure KeepsApart (fetch : String → Fetched) (D : Disk) (dir : String) (names : List String)
    (r : Option (Except String (List FileDoc × List String)) × Downloads) : Prop where
  created : ∀ loc ∈ r.2.created, D.target dir <:+ loc
  written : ∀ w ∈ r.2.written, D.target dir <:+ w.2
  apart : Apart r.2.written
  contents : ∀ out, r.1 = some (.ok out) → ∀ q ∈ names.zip out.2, ∃ data doc,
    fetch q.1 = .content data doc ∧ r.2.disk.entry (D.target q.2) = some (.file (some data))

/-! ## The condition -/

variable {fetch : String → Fetched} {D : Disk} {made : List Location} {path : String}

def neededDirs (D : Disk) (path : String) : List Location :=
  D.missing (D.start path) (dirComponents path)

def Fetched.isMissing : Fetched → Bool
  | missing _ => true
  | _ => false

def Fetched.isContent : Fetched → Bool
  | content _ _ => true
  | _ => false

/-- The files up to the first one that is not found, cannot be opened or breaks off; in the last
case that one is among them. -/
def startedFiles (fetch : String → Fetched) (D : Disk) (made : List Location) :
    List (String × String) → List (String × String)
  | [] => []
  | q :: files =>
    if (fetch q.1).isMissing || !D.opens made q.2 then []
    else if (fetch q.1).isContent then q :: startedFiles fetch D made files
    else [q]

def pathIn (D : Disk) (dir name : String) : String :=
  normalizePath D (normalizePath D (filePath dir name))

/-- The files of a directory that are started, and the places that their paths lead to. -/
def startedIn (fetch : String → Fetched) (D : Disk) (dir : String) (names : List String) :
    List (String × Location) :=
  (startedFiles fetch D (names.flatMap fun name => neededDirs D (pathIn D dir name))
    (names.map fun name => (name, pathIn D dir name))).map fun q => (q.1, D.target q.2)

/-- Names lead into the directory, different ones to different places. -/
structure LeadInside (fetch : String → Fetched) (D : Disk) (dir : String) (names : List String) :
    Prop where
  dirs : ∀ name ∈ names, ∀ loc ∈ neededDirs D (pathIn D dir name), D.target dir <:+ loc
  files : ∀ w ∈ startedIn fetch D dir names, D.target dir <:+ w.2
  apart : Apart (startedIn fetch D dir names)

/-! ## Directories -/

theorem createAll_spec (D : Disk) (paths : List String) :
    Made D (createAll D paths).2 (createAll D paths).1 ∧
      ∀ l, l ∈ (createAll D paths).2 ↔ ∃ path ∈ paths, l ∈ neededDirs D path := by
  have hall : ∀ x : Disk × List Location, Made D x.2 x.1 →
      Made D (paths.foldl (fun x path => makeDirs (x.1.start path) (dirComponents path) x) x).2
        (paths.foldl (fun x path => makeDirs (x.1.start path) (dirComponents path) x) x).1 ∧
      ∀ l, l ∈ (paths.foldl (fun x path => makeDirs (x.1.start path) (dirComponents path) x) x).2 ↔
        l ∈ x.2 ∨ ∃ path ∈ paths, l ∈ neededDirs D path := by
    induction paths with
    | nil => exact fun x h => ⟨h, fun l => by simp⟩
    | cons path paths ih =>
      rintro ⟨D', made⟩ h
      have hstart : D'.start path = D.start path := by rw [start, start, h.cwd]
      have hdir : D'.entry (D'.start path) = some .dir := D'.start_dir path
      obtain ⟨hmade, hiff⟩ := h.makeDirs hdir (dirComponents path)
      obtain ⟨hmade', hiff'⟩ := ih _ hmade
      refine ⟨hmade', fun l => (hiff' l).trans ?_⟩
      rw [hiff, hstart, List.exists_mem_cons_iff, or_assoc]
      rfl
  obtain ⟨hmade, hiff⟩ := hall (D, []) (made_nil D)
  exact ⟨hmade, fun l => by simpa [createAll] using hiff l⟩

/-! ## Files -/

theorem Disk.SameDirs.opened {D' : Disk} {loc : Location} (h : SameDirs D made D')
    (hopen : D'.fopen path = some loc) (content : Option (List UInt8)) :
    SameDirs D made (D'.write loc content) := by
  obtain ⟨hfree, hparent⟩ := free_of_fopen hopen
  exact h.write hfree hparent content

theorem startedFiles_congr {made' : List Location} (h : ∀ l, l ∈ made ↔ l ∈ made')
    (files : List (String × String)) :
    startedFiles fetch D made files = startedFiles fetch D made' files := by
  have hopens (path : String) : D.opens made path = D.opens made' path := by
    simp only [opens, List.contains_eq_mem, h]
  induction files with
  | nil => rfl
  | cons q files ih => simp only [startedFiles, hopens, ih]

variable (fetch) in
theorem downloadAll_written {st : Downloads} {files : List (String × String)}
    (h : SameDirs D made st.disk) (hmade : ∀ q ∈ files, ∀ l ∈ neededDirs D q.2, l ∈ made)
    (out : List FileDoc) :
    (downloadAll fetch files out st).2.created = st.created ∧
      (downloadAll fetch files out st).2.written =
        st.written ++ (startedFiles fetch D made files).map fun q => (q.1, D.target q.2) := by
  induction files generalizing out st with
  | nil => simp [downloadAll, startedFiles]
  | cons q files ih =>
    obtain ⟨name, path⟩ := q
    rw [List.forall_mem_cons] at hmade
    have hopen := h.fopen hmade.1
    rw [downloadAll, startedFiles]
    cases hfetch : fetch name with
    | missing e => simp [Fetched.isMissing]
    | broken e =>
      cases hopens : D.opens made path with
      | false => simp [hopen, hopens]
      | true => simp [hopen, hopens, Fetched.isMissing, Fetched.isContent, Downloads.write]
    | content data doc =>
      cases hopens : D.opens made path with
      | false => simp [hopen, hopens]
      | true =>
        rw [hopens, if_pos rfl] at hopen
        have hdirs : SameDirs D made (st.write name (D.target path) (some data)).disk :=
          h.opened hopen _
        obtain ⟨hcreated, hwritten⟩ := ih hdirs hmade.2 (out ++ [doc])
        simp only [hopen, hcreated, hwritten]
        simp [Fetched.isMissing, Fetched.isContent, Downloads.write]

/-! ## Contents -/

def HoldsContents (fetch : String → Fetched) (st : Downloads) : Prop :=
  ∀ w ∈ st.written, ∃ data doc,
    fetch w.1 = .content data doc ∧ st.disk.entry w.2 = some (.file (some data))

theorem HoldsContents.write {st : Downloads} {name : String} {loc : Location} {data : List UInt8}
    {doc : FileDoc} (h : HoldsContents fetch st) (hopen : st.disk.fopen path = some loc)
    (hfetch : fetch name = .content data doc)
    (hapart : ∀ w ∈ st.written, w.1 ≠ name → w.2 ≠ loc) :
    HoldsContents fetch (st.write name loc (some data)) := by
  obtain ⟨hfree, hparent⟩ := free_of_fopen hopen
  obtain ⟨-, -, hentry⟩ := put_of_free (e := .file (some data)) hfree hparent
  intro w hw
  have hw' : w ∈ st.written ∨ w = (name, loc) := by simpa [Downloads.write] using hw
  change ∃ data' doc', fetch w.1 = .content data' doc' ∧
    (st.disk.put loc (.file (some data))).entry w.2 = some (.file (some data'))
  rw [hentry]
  rcases hw' with hmem | rfl
  · by_cases hloc : w.2 = loc
    · have hname : w.1 = name := by
        by_contra hne
        exact hapart w hmem hne hloc
      exact ⟨data, doc, hname ▸ hfetch, if_pos hloc⟩
    · obtain ⟨data', doc', hfetch', hentry'⟩ := h w hmem
      exact ⟨data', doc', hfetch', (if_neg hloc).trans hentry'⟩
  · exact ⟨data, doc, hfetch, if_pos rfl⟩

theorem exists_content_of_ok {st : Downloads} {name : String} {files : List (String × String)}
    {out out' : List FileDoc}
    (hok : (downloadAll fetch ((name, path) :: files) out st).1 = some (.ok out')) :
    ∃ data doc loc, fetch name = .content data doc ∧ st.disk.fopen path = some loc ∧
      downloadAll fetch ((name, path) :: files) out st =
        downloadAll fetch files (out ++ [doc]) (st.write name loc (some data)) := by
  rw [downloadAll] at hok ⊢
  cases hfetch : fetch name with
  | missing e => simp [hfetch] at hok
  | broken e => cases hopen : st.disk.fopen path <;> simp [hfetch, hopen] at hok
  | content data doc =>
    cases hopen : st.disk.fopen path with
    | none => simp [hfetch, hopen] at hok
    | some loc => exact ⟨data, doc, loc, rfl, rfl, rfl⟩

/-- Where the loop returns it started every file, and each place holds what was written there. -/
theorem HoldsContents.downloadAll {st : Downloads} {files : List (String × String)}
    {out out' : List FileDoc} (h : HoldsContents fetch st) (hdirs : SameDirs D made st.disk)
    (hmade : ∀ q ∈ files, ∀ l ∈ neededDirs D q.2, l ∈ made)
    (hapart : Apart
      (st.written ++ (startedFiles fetch D made files).map fun q => (q.1, D.target q.2)))
    (hok : (downloadAll fetch files out st).1 = some (.ok out')) :
    startedFiles fetch D made files = files ∧
      HoldsContents fetch (Mongolite.downloadAll fetch files out st).2 := by
  induction files generalizing out st with
  | nil => exact ⟨rfl, h⟩
  | cons q files ih =>
    obtain ⟨name, path⟩ := q
    rw [List.forall_mem_cons] at hmade
    obtain ⟨data, doc, loc, hfetch, hopen, hstep⟩ := exists_content_of_ok hok
    have hplace := hopen.symm.trans (hdirs.fopen hmade.1)
    split_ifs at hplace with hopens
    obtain rfl := Option.some.inj hplace
    have hstarted : startedFiles fetch D made ((name, path) :: files) =
        (name, path) :: startedFiles fetch D made files := by
      simp [startedFiles, hfetch, hopens, Fetched.isMissing, Fetched.isContent]
    rw [hstep] at hok ⊢
    rw [hstarted, List.map_cons, List.append_cons] at hapart
    have hbefore : ∀ w ∈ st.written, w.1 ≠ name → w.2 ≠ D.target path := by
      intro w hw
      have hpair := (List.pairwise_append.mp hapart).1
      exact (List.pairwise_append.mp hpair).2.2 w hw _ List.mem_cons_self
    obtain ⟨hall, hholds⟩ :=
      ih (h.write hopen hfetch hbefore) (hdirs.opened hopen _) hmade.2 hapart hok
    exact ⟨by rw [hstarted, hall], hholds⟩

theorem downloadPaths_dir {dir : String} (hdir : D.isDir dir = true) (names : List String) :
    downloadPaths D names [dir] = .ok (names.map (pathIn D dir)) := by
  rw [downloadPaths, if_pos ⟨rfl, by simpa using hdir⟩]
  rfl

variable (fetch) in
theorem downloadAll_createAll {files : List (String × String)} {paths : List String}
    (hpaths : ∀ q ∈ files, q.2 ∈ paths)
    {r : Option (Except String (List FileDoc)) × Downloads}
    (hr : downloadAll fetch files [] ⟨(createAll D paths).1, (createAll D paths).2, []⟩ = r)
    (hmade : ∀ l, l ∈ made ↔ ∃ path ∈ paths, l ∈ neededDirs D path) :
    (∀ l, l ∈ r.2.created ↔ l ∈ made) ∧
      r.2.written = (startedFiles fetch D made files).map (fun q => (q.1, D.target q.2)) ∧
      (Apart r.2.written → ∀ out, r.1 = some (.ok out) → ∀ q ∈ files, ∃ data doc,
        fetch q.1 = .content data doc ∧
          r.2.disk.entry (D.target q.2) = some (.file (some data))) := by
  obtain ⟨hcreate, hiff⟩ := createAll_spec D paths
  have hneeded : ∀ q ∈ files, ∀ l ∈ neededDirs D q.2, l ∈ (createAll D paths).2 :=
    fun q hq l hl => (hiff l).mpr ⟨q.2, hpaths q hq, hl⟩
  have hstarted : startedFiles fetch D (createAll D paths).2 files =
      startedFiles fetch D made files :=
    startedFiles_congr (fun l => (hiff l).trans (hmade l).symm) files
  have hdirs : SameDirs D (createAll D paths).2
      (Downloads.mk (createAll D paths).1 (createAll D paths).2 []).disk := hcreate.sameDirs
  obtain ⟨hcreated, hwritten⟩ := downloadAll_written fetch hdirs hneeded []
  rw [hr] at hcreated hwritten
  rw [hstarted, List.nil_append] at hwritten
  refine ⟨fun l => ?_, hwritten, ?_⟩
  · rw [hcreated, hiff, hmade]
  · intro hapart out hok q hq
    have hnone : HoldsContents fetch ⟨(createAll D paths).1, (createAll D paths).2, []⟩ := by
      rintro w ⟨⟩
    rw [hwritten, ← hstarted] at hapart
    obtain ⟨hall, hholds⟩ := hnone.downloadAll hdirs hneeded hapart (hr ▸ hok)
    rw [hr] at hholds
    refine hholds (q.1, D.target q.2) ?_
    rw [hwritten, ← hstarted, hall]
    exact List.mem_map_of_mem hq

theorem downloadFiles_dir {dir : String} (hdir : D.isDir dir = true) (names : List String)
    {r : Option (Except String (List FileDoc × List String)) × Downloads}
    (hr : downloadFiles fetch D names [dir] = r) :
    (∀ l, l ∈ r.2.created ↔ ∃ name ∈ names, l ∈ neededDirs D (pathIn D dir name)) ∧
      r.2.written = startedIn fetch D dir names ∧
      (Apart r.2.written → ∀ out, r.1 = some (.ok out) → ∀ q ∈ names.zip out.2, ∃ data doc,
        fetch q.1 = .content data doc ∧
          r.2.disk.entry (D.target q.2) = some (.file (some data))) := by
  rw [downloadFiles, downloadPaths_dir hdir] at hr
  rw [startedIn]
  generalize pathIn D dir = f at hr ⊢
  rw [List.map_prod_left_eq_zip]
  have hpaths : ∀ q ∈ names.zip (names.map f), q.2 ∈ names.map f :=
    fun q hq => (List.of_mem_zip hq).2
  have hmade : ∀ l, l ∈ (names.flatMap fun name => neededDirs D (f name)) ↔
      ∃ path ∈ names.map f, l ∈ neededDirs D path := by
    intro l
    simp only [List.mem_flatMap, List.mem_map, exists_exists_and_eq_and]
  obtain ⟨hcreated, hwritten, hcontents⟩ := downloadAll_createAll fetch hpaths rfl hmade
  subst hr
  refine ⟨fun l => ?_, hwritten, ?_⟩
  · rw [hcreated, List.mem_flatMap]
  · rintro hapart ⟨out, paths⟩ hok q hq
    change Option.map (fun r => Except.map (fun out => (out, names.map f)) r) _ = _ at hok
    obtain ⟨r', hrun, hr'⟩ := Option.map_eq_some_iff.mp hok
    cases r' with
    | error e => cases hr'
    | ok out' =>
      cases hr'
      exact hcontents hapart out hrun q hq

/-- A download into a directory that writes files stays in it and keeps them apart if and only if
the names lead into it, different ones to different places. -/
theorem keepsApart_iff (validate : String → Bool) (queryMatches : String → FileDoc → Bool)
    (s : GridServer) (D : Disk) (dir : String) (names : List String) (hdir : D.isDir dir = true) :
    ((downloadFiles (fetchFile validate queryMatches s) D names [dir]).2.written ≠ [] →
        KeepsApart (fetchFile validate queryMatches s) D dir names
          (downloadFiles (fetchFile validate queryMatches s) D names [dir])) ↔
      (startedIn (fetchFile validate queryMatches s) D dir names ≠ [] →
        LeadInside (fetchFile validate queryMatches s) D dir names) := by
  generalize fetchFile validate queryMatches s = fetch
  obtain ⟨hcreated, hwritten, hcontents⟩ := downloadFiles_dir hdir names rfl
  rw [hwritten]
  refine imp_congr_right fun _ => ⟨fun h => ?_, fun h => ?_⟩
  · constructor
    · exact fun name hname loc hloc => h.created loc ((hcreated loc).mpr ⟨name, hname, hloc⟩)
    · exact hwritten ▸ h.written
    · exact hwritten ▸ h.apart
  · constructor
    · intro loc hloc
      obtain ⟨name, hname, hneeded⟩ := (hcreated loc).mp hloc
      exact h.dirs name hname loc hneeded
    · exact hwritten.symm ▸ h.files
    · exact hwritten.symm ▸ h.apart
    · exact hcontents (hwritten.symm ▸ h.apart)

def homeDisk : Disk where
  entry := fun loc => if loc ∈ [[], ["home"], ["downloads", "home"]] then some .dir else none
  link := fun _ => none
  cwd := ["home"]
  root_dir := rfl
  cwd_dir := rfl
  parent_dir := by
    intro c loc h
    have hmem : c :: loc ∈ [[], ["home"], ["downloads", "home"]] := by
      by_contra hnot
      exact h (if_neg hnot)
    simp only [List.mem_cons, List.not_mem_nil, or_false, List.cons.injEq, reduceCtorEq,
      false_or] at hmem
    rcases hmem with ⟨-, rfl⟩ | ⟨-, rfl⟩
    · rfl
    · rfl
  link_live := by
    rintro loc l ⟨⟩

def namedFiles (names : List String) : GridServer where
  chunks := fun id n => if n = 0 then some [id.toUInt8] else none
  files := names.zipIdx.map fun x => ⟨x.2, 1, 255, 0, some x.1, none, none⟩
  sent := 0

abbrev fetchNamed (names : List String) : String → Fetched :=
  fetchFile (fun _ => false) (fun _ _ => false) (namedFiles names)

theorem keepsApart_two_files :
    KeepsApart (fetchNamed ["a", "b/c"]) homeDisk "downloads" ["a", "b/c"]
      (downloadFiles (fetchNamed ["a", "b/c"]) homeDisk ["a", "b/c"] ["downloads"]) :=
  (keepsApart_iff (fun _ => false) (fun _ _ => false) (namedFiles ["a", "b/c"]) homeDisk "downloads"
    ["a", "b/c"] (by decide +kernel)).mpr
      (fun _ => ⟨by decide +kernel, by decide +kernel, by decide +kernel⟩) (by decide +kernel)

/-- A name that leads back leads out of the directory, and two names can lead to one place. -/
theorem not_keepsApart_leading_out :
    ¬ (homeDisk.isDir "downloads" = true →
      (downloadFiles (fetchNamed ["../x"]) homeDisk ["../x"] ["downloads"]).2.written ≠ [] →
        KeepsApart (fetchNamed ["../x"]) homeDisk "downloads" ["../x"]
          (downloadFiles (fetchNamed ["../x"]) homeDisk ["../x"] ["downloads"])) ∧
    ¬ (homeDisk.isDir "downloads" = true →
      (downloadFiles (fetchNamed ["a", "./a"]) homeDisk ["a", "./a"] ["downloads"]).2.written ≠ [] →
        KeepsApart (fetchNamed ["a", "./a"]) homeDisk "downloads" ["a", "./a"]
          (downloadFiles (fetchNamed ["a", "./a"]) homeDisk ["a", "./a"] ["downloads"])) := by
  have hout : (downloadFiles (fetchNamed ["../x"]) homeDisk ["../x"] ["downloads"]).2.written =
      [("../x", ["x", "home"])] := by decide +kernel
  have hsame :
      (downloadFiles (fetchNamed ["a", "./a"]) homeDisk ["a", "./a"] ["downloads"]).2.written =
        [("a", ["a", "downloads", "home"]), ("./a", ["a", "downloads", "home"])] := by
    decide +kernel
  constructor
  · intro h
    have hkept := h (by decide +kernel) (by rw [hout]; exact List.cons_ne_nil _ _)
    have hinside := hkept.written ("../x", ["x", "home"]) (by rw [hout]; exact .head _)
    exact absurd hinside (by decide +kernel)
  · intro h
    have hkept := h (by decide +kernel) (by rw [hsame]; exact List.cons_ne_nil _ _)
    have hapart := hkept.apart
    rw [hsame] at hapart
    exact absurd hapart (by decide +kernel)

end Mongolite
