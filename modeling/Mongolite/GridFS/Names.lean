import Mathlib.Data.Fintype.EquivFin
import Mongolite.GridFS.Content

/-! # Files and their names

`fs$read`, `fs$download` and `fs$remove` look a file up by its name or by a
query. A file that `fs$upload` or `fs$write` stored has the name it was given.
-/

namespace Mongolite

variable {validate : String → Bool} {queryMatches : String → FileDoc → Bool} {fate : ℕ → Fate}
  {name : String} {s : GridServer} {x x' : FileIO} {b : Bool} {old : List FileDoc} {id : ℕ}

/-- The file that reading, downloading and removing look up. -/
def lookUp (validate : String → Bool) (queryMatches : String → FileDoc → Bool) (s : GridServer)
    (x : String) : Except String OpenFile :=
  match nameOrQuery validate x with
  | .error e => .error e
  | .ok name => findSingleFile queryMatches s name

/-- `mongoc_gridfs_file_remove`: the document first, then the chunks. -/
def mongocGridfsFileRemove (fate : ℕ → Fate) (f : OpenFile) (s : GridServer) :
    Option String × GridServer :=
  match s.update fate fun s => { s with files := s.files.eraseP (·.id = f.doc.id) } with
  | (some e, s') => (some e, s')
  | (none, s') => s'.update fate fun s =>
      { s with chunks := fun i k => if i = f.doc.id then none else s.chunks i k }

def rMongoGridfsRemove (fate : ℕ → Fate) (f : OpenFile) (s : GridServer) :
    Except String FileDoc × GridServer :=
  match mongocGridfsFileRemove fate f s with
  | (some e, s') => (.error e, s')
  | (none, s') => (.ok f.doc, s')

def mongoGridfsRemove (validate : String → Bool) (queryMatches : String → FileDoc → Bool)
    (fate : ℕ → Fate) :
    List String → List FileDoc → GridServer → Except String (List FileDoc) × GridServer
  | [], out, s => (.ok out, s)
  | x :: names, out, s =>
    match lookUp validate queryMatches s x with
    | .error e => (.error e, s)
    | .ok f =>
      match rMongoGridfsRemove fate f s with
      | (.error e, s') => (.error e, s')
      | (.ok doc, s') => mongoGridfsRemove validate queryMatches fate names (out ++ [doc]) s'

theorem withFile_eq_lookUp (body : OpenFile → Option (Except String (List UInt8))) (y : String) :
    withFile validate queryMatches s y body =
      andThen (some (lookUp validate queryMatches s y)) fun f =>
        andThen (body f) fun data => some (.ok (data, f.doc)) := by
  rw [withFile, lookUp]
  cases nameOrQuery validate y with
  | error e => rfl
  | ok name => rfl

/-- Under this name `fs$read`, `fs$download` and `fs$remove` take the file with this id. -/
structure FoundUnder (validate : String → Bool) (queryMatches : String → FileDoc → Bool)
    (s : GridServer) (x : String) (id : ℕ) : Prop where
  read : ∃ f, f.doc.id = id ∧ mongoGridfsReadStream validate queryMatches s x =
    andThen (readChunks s (f.doc.length + 1) f.doc.length [] f) fun data => some (.ok (data, f.doc))
  download : ∃ f, f.doc.id = id ∧ mongoGridfsDownload validate queryMatches s x =
    andThen (downloadChunks s (f.doc.length + 1) [] f) fun data => some (.ok (data, f.doc))
  remove : ∀ fate, ∃ f, f.doc.id = id ∧ mongoGridfsRemove validate queryMatches fate [x] [] s =
    ((rMongoGridfsRemove fate f s).1.map fun doc => [doc], (rMongoGridfsRemove fate f s).2)

theorem mongoGridfsRemove_of_lookUp {f : OpenFile}
    (hfind : lookUp validate queryMatches s name = .ok f) (fate : ℕ → Fate) :
    mongoGridfsRemove validate queryMatches fate [name] [] s =
      ((rMongoGridfsRemove fate f s).1.map fun doc => [doc], (rMongoGridfsRemove fate f s).2) := by
  rw [mongoGridfsRemove, hfind]
  rcases hremove : rMongoGridfsRemove fate f s with ⟨e | doc, s'⟩
  · simp only [hremove, Except.map]
  · simp only [hremove, Except.map, mongoGridfsRemove, List.nil_append]

theorem foundUnder_of_lookUp {f : OpenFile} (hfind : lookUp validate queryMatches s name = .ok f) :
    FoundUnder validate queryMatches s name f.doc.id := by
  constructor
  · exact ⟨f, rfl, by rw [mongoGridfsReadStream, withFile_eq_lookUp, hfind, andThen_ok]⟩
  · exact ⟨f, rfl, by rw [mongoGridfsDownload, withFile_eq_lookUp, hfind, andThen_ok]⟩
  · exact fun fate => ⟨f, rfl, mongoGridfsRemove_of_lookUp hfind fate⟩

theorem FoundUnder.id_eq {f : OpenFile} (h : FoundUnder validate queryMatches s name id)
    (hfind : lookUp validate queryMatches s name = .ok f) : f.doc.id = id := by
  obtain ⟨f', hid, hremove⟩ := h.remove fun _ => .done
  rw [mongoGridfsRemove_of_lookUp hfind] at hremove
  have hdocs : [f.doc] = [f'.doc] := Except.ok.inj (congrArg Prod.fst hremove)
  rw [(List.cons.inj hdocs).1, hid]

theorem lookUp_name (queryMatches : String → FileDoc → Bool) (s : GridServer)
    (hname : nameOrQuery validate name = .ok (.name name)) :
    lookUp validate queryMatches s name =
      (s.files.find? fun d => d.filename = some name).elim (.error "File not found. ")
        (.ok ∘ openFile) := by
  rw [lookUp, hname]
  rfl

theorem filename_of_lookUp {f : OpenFile} (hname : nameOrQuery validate name = .ok (.name name))
    (hfind : lookUp validate queryMatches s name = .ok f) : f.doc.filename = some name := by
  rw [lookUp_name _ _ hname] at hfind
  cases hd : s.files.find? fun d => d.filename = some name with
  | none => simp [hd] at hfind
  | some d =>
    simp only [hd, Option.elim_some, Function.comp_apply, Except.ok.injEq] at hfind
    rw [← hfind]
    simpa [openFile] using List.find?_some hd

/-- A file was stored under an id and a name, and nothing else was. -/
structure StoredAs (old : List FileDoc) (id : ℕ) (name : String) (s : GridServer) : Prop where
  mem : ∃ d ∈ s.files, d.filename = some name
  own : ∀ d ∈ s.files, d.id = id ∨ d ∈ old

/-- Where no older file has its name, the stored file is found by it. -/
theorem StoredAs.foundUnder (h : StoredAs old id name s)
    (hname : nameOrQuery validate name = .ok (.name name))
    (hold : ∀ d ∈ old, d.filename ≠ some name) : FoundUnder validate queryMatches s name id := by
  obtain ⟨d₀, hd₀, hfilename⟩ := h.mem
  have hlookUp := lookUp_name queryMatches s hname
  cases hd : s.files.find? fun d => d.filename = some name with
  | none => exact absurd (decide_eq_true hfilename) (List.find?_eq_none.mp hd d₀ hd₀)
  | some d =>
    have hsame : d.filename = some name := by simpa using List.find?_some hd
    have hid : d.id = id :=
      (h.own d (List.mem_of_find?_eq_some hd)).resolve_right fun hmem => hold d hmem hsame
    rw [hd] at hlookUp
    exact hid ▸ foundUnder_of_lookUp hlookUp

/-! ## The name of a new file -/

/-- A file has this name and id, and unless its document is still to be updated it is stored. -/
structure Named (old : List FileDoc) (id : ℕ) (name : String) (x : FileIO) : Prop where
  filename : x.1.doc.filename = some name
  id_eq : x.1.doc.id = id
  stored : x.1.isDirty = false → StoredAs old id name x.2
  own : ∀ d ∈ x.2.files, d.id = id ∨ d ∈ old

theorem Named.upsertFile (h : Named old id name x) (hrun : upsertFile fate x = (true, x')) :
    Named old id name x' ∧ StoredAs old id name x'.2 := by
  obtain ⟨hdoc, -, -, -, -, hown⟩ := upsertFile_spec hrun
  have hown' : ∀ d ∈ x'.2.files, d.id = id ∨ d ∈ old := fun d hd =>
    (hown d hd).elim (fun hid => .inl (hid.trans h.id_eq)) (h.own d)
  have hstored : StoredAs old id name x'.2 := by
    refine ⟨⟨x.1.doc, ?_, h.filename⟩, hown'⟩
    rw [upsertFile_files hrun]
    exact (setFile_spec x.1.doc x.2).1
  exact ⟨⟨hdoc ▸ h.filename, hdoc ▸ h.id_eq, fun _ => hstored, hown'⟩, hstored⟩

theorem Named.flushPage (h : Named old id name x) (hrun : flushPage fate x = (true, x')) :
    Named old id name x' := by
  obtain ⟨-, hb, -⟩ | ⟨-, hdirty, hup⟩ | ⟨-, hclean, -, rfl⟩ := flushPage_cases hrun
  · cases hb
  · have hpage : Named old id name (storedPage x) :=
      ⟨h.filename, h.id_eq, fun hclean => absurd (hdirty.symm.trans hclean) Bool.noConfusion, h.own⟩
    exact (hpage.upsertFile hup).1
  · exact ⟨h.filename, h.id_eq, fun _ => ⟨(h.stored hclean).mem, h.own⟩, h.own⟩

theorem Named.save (h : Named old id name x) (hrun : mongocGridfsFileSave fate x = (true, x')) :
    StoredAs old id name x'.2 := by
  unfold mongocGridfsFileSave at hrun
  split_ifs at hrun with hdirty hpage
  · rcases hflush : Mongolite.flushPage fate x with ⟨_ | _, x₁⟩
    · simp [hflush] at hrun
    · simp only [hflush] at hrun
      exact ((h.flushPage hflush).upsertFile hrun).2
  · exact (h.upsertFile hrun).2
  · cases hrun
    exact h.stored (by simpa using hdirty)

theorem currentPage_doc {f f' : OpenFile} (hrun : currentPage s f = (b, f')) :
    f'.doc = f.doc ∧ f'.isDirty = f.isDirty := by
  unfold currentPage refreshPage at hrun
  dsimp only at hrun
  split at hrun
  · split_ifs at hrun
    · cases hrun
      exact ⟨rfl, rfl⟩
    · cases hrun
      exact ⟨rfl, rfl⟩
    · split at hrun
      · cases hrun
        exact ⟨rfl, rfl⟩
      · split_ifs at hrun
        all_goals
          cases hrun
          exact ⟨rfl, rfl⟩
  · cases hrun
    exact ⟨rfl, rfl⟩

theorem Named.writevLoop {fuel written n : ℕ} {src : List UInt8} (h : Named old id name x)
    (hrun : writevLoop fate fuel src written x = some (some n, x')) : Named old id name x' := by
  induction fuel generalizing src written x with
  | zero => cases hrun
  | succ fuel ih =>
    rw [Mongolite.writevLoop] at hrun
    rcases hpage : currentPage x.2 x.1 with ⟨_ | _, f⟩
    · simp [hpage] at hrun
    · simp only [hpage] at hrun
      obtain ⟨hdoc, hdirty⟩ := currentPage_doc hpage
      split at hrun
      · cases hrun
      · split_ifs at hrun
        · cases hrun
          exact ⟨hdoc ▸ h.filename, hdoc ▸ h.id_eq, fun hclean => Bool.noConfusion hclean, h.own⟩
        · split at hrun
          · cases hrun
          · rename_i x₁ hflush
            refine ih (Named.flushPage ⟨?_, ?_, ?_, ?_⟩ hflush) hrun
            · exact hdoc ▸ h.filename
            · exact hdoc ▸ h.id_eq
            · exact fun hclean => h.stored (hdirty ▸ hclean)
            · exact h.own

theorem Named.seekStart (h : Named old id name x) (hrun : seekStart fate x = (true, x')) :
    Named old id name x' := by
  unfold Mongolite.seekStart at hrun
  dsimp only at hrun
  split_ifs at hrun
  · split at hrun
    · cases hrun
    · rename_i x₁ hflush
      cases hrun
      have hnamed := h.flushPage hflush
      exact ⟨hnamed.filename, hnamed.id_eq, hnamed.stored, hnamed.own⟩
  · cases hrun
    exact ⟨h.filename, h.id_eq, h.stored, h.own⟩
  · cases hrun
    exact ⟨h.filename, h.id_eq, h.stored, h.own⟩

theorem Named.createFileFromStream {readError : Bool} {pieces : List (List UInt8)}
    (h : Named old id name x)
    (hrun : createFileFromStream fate readError pieces x = some (true, x')) :
    Named old id name x' := by
  induction pieces generalizing x with
  | nil =>
    rw [Mongolite.createFileFromStream] at hrun
    split_ifs at hrun
    · cases hrun
    · exact h.seekStart (Option.some.inj hrun)
  | cons buf pieces ih =>
    rw [Mongolite.createFileFromStream] at hrun
    split_ifs at hrun
    · exact h.seekStart (Option.some.inj hrun)
    · split at hrun
      · cases hrun
      · cases hrun
      · rename_i n x₁ hwrite
        exact ih (Named.writevLoop h hwrite) hrun

theorem Named.setFields (h : Named old id name x) (contentType metadata : Option String) :
    Named old id name (metadata.elim (contentType.elim x.1 x.1.setContentType)
      (contentType.elim x.1 x.1.setContentType).setMetadata, x.2) := by
  cases contentType with
  | none =>
    cases metadata with
    | none => exact h
    | some metadata => exact ⟨h.filename, h.id_eq, fun hclean => Bool.noConfusion hclean, h.own⟩
  | some contentType =>
    cases metadata with
    | none => exact ⟨h.filename, h.id_eq, fun hclean => Bool.noConfusion hclean, h.own⟩
    | some metadata => exact ⟨h.filename, h.id_eq, fun hclean => Bool.noConfusion hclean, h.own⟩

theorem storedAs_of_upload {uploadDate : ℤ} {args : UploadArgs} {doc : FileDoc} {s' : GridServer}
    (hrun : rMongoGridfsUpload fate id uploadDate args s = some (.ok doc, s')) :
    StoredAs s.files id args.name s' := by
  have hnew : Named s.files id args.name (mongocGridfsFileNew id uploadDate args.name, s) :=
    ⟨rfl, rfl, fun hclean => Bool.noConfusion hclean, fun d hd => .inr hd⟩
  unfold rMongoGridfsUpload at hrun
  split at hrun
  · cases hrun
  · split at hrun
    · cases hrun
    · cases hrun
    · rename_i x₁ hcreate
      have hset := (hnew.createFileFromStream hcreate).setFields args.contentType args.metadata
      dsimp only at hrun
      split at hrun
      · rename_i x₂ hsave
        cases hrun
        exact hset.save hsave
      · cases hrun

theorem storedAs_of_write {uploadDate : ℤ} {args : WriteArgs} {doc : FileDoc} {r : WriteResult}
    (hrun : mongoGridfsWriteStream fate id uploadDate args s = some r)
    (hok : r.outcome = .ok doc) : StoredAs s.files id args.name r.server := by
  obtain ⟨contentType, metadata, hstream⟩ := rNewWriteStream_spec id uploadDate args
  obtain ⟨r', hrun', hsaved⟩ := mongoGridfsWriteStream_spec fate id uploadDate args s
  cases Option.some.inj (hrun.symm.trans hrun')
  obtain ⟨f, -, hsaved⟩ := hsaved doc hok
  rw [hstream] at hsaved
  exact ⟨⟨_, hsaved.mem, rfl⟩, hsaved.own⟩

def emptyFile (name : String) : WriteArgs := ⟨none, name, none, none, ⟨none, [], none⟩, none⟩

theorem write_emptyFile (s : GridServer) (name : String) (hid : ∀ d ∈ s.files, d.id ≠ id) :
    ∃ r doc, mongoGridfsWriteStream (fun _ => .done) id 0 (emptyFile name) s = some r ∧
      r.outcome = .ok doc ∧ r.server.files = s.files ++ [doc] := by
  refine ⟨_, _, rfl, rfl, ?_⟩
  have hnew : ¬ (s.files.any fun d => d.id = id) = true := by simpa using hid
  exact if_neg hnew

theorem not_foundUnder_of_older {d : FileDoc} (queryMatches : String → FileDoc → Bool)
    (hname : nameOrQuery validate name = .ok (.name name)) (hd : d ∈ s.files)
    (hfilename : d.filename = some name) :
    ∃ id r doc, mongoGridfsWriteStream (fun _ => .done) id 0 (emptyFile name) s = some r ∧
      r.outcome = .ok doc ∧ ¬ FoundUnder validate queryMatches r.server name id := by
  obtain ⟨id, hfresh⟩ := Infinite.exists_notMem_finset (s.files.map FileDoc.id).toFinset
  have hid : ∀ d ∈ s.files, d.id ≠ id := by
    rintro d hd rfl
    exact hfresh (List.mem_toFinset.mpr (List.mem_map_of_mem hd))
  obtain ⟨r, doc, hrun, hok, hfiles⟩ := write_emptyFile s name hid
  refine ⟨id, r, doc, hrun, hok, ?_⟩
  intro hfound
  cases hfirst : s.files.find? fun d => d.filename = some name with
  | none => exact absurd (decide_eq_true hfilename) (List.find?_eq_none.mp hfirst d hd)
  | some d' =>
    have hlookUp := lookUp_name queryMatches r.server hname
    rw [hfiles, List.find?_append, hfirst] at hlookUp
    exact hid d' (List.mem_of_find?_eq_some hfirst) (hfound.id_eq hlookUp)

end Mongolite
