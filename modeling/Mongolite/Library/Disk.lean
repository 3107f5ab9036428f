import Mathlib.Data.List.Basic
import Mathlib.Tactic.SplitIfs
import Mathlib.Tactic.Tauto

/-! # Directories and files of a disk

A place on a disk is named by the components on the way to it from the root. A
path is walked component by component: `..` leads back, and a symbolic link to
another place. A missing directory can be made on the way; a file is in the way.
-/

namespace Mongolite

/-- The components on the way from the root, the last one first. -/
abbrev Location := List String

/-- What is at a place. The content of a file is unknown after a write that was cut short. -/
inductive Entry where
  | dir
  | file (content : Option (List UInt8))
  deriving DecidableEq, Repr

/-- The entries of a disk, the places that its symbolic links lead to, and the working directory.
What exists is in directories, and so is what a link leads to. -/
structure Disk where
  entry : Location → Option Entry
  link : Location → Option Location
  cwd : Location
  root_dir : entry [] = some .dir
  cwd_dir : entry cwd = some .dir
  parent_dir : ∀ c loc, entry (c :: loc) ≠ none → entry loc = some .dir
  link_live : ∀ loc l, link loc = some l → entry l ≠ none

/-- What a component of a directory's path does: it leads into a directory, or one is missing there,
or a file is in the way. -/
inductive Passage where
  | through
  | missing
  | blocked
  deriving DecidableEq, Repr

namespace Disk

def isDots (c : String) : Bool := c ∈ ["", ".", ".."]

/-- The place that a component leads to. -/
def enter (D : Disk) (loc : Location) (c : String) : Location :=
  if isDots c then if c = ".." then loc.tail else loc else (D.link (c :: loc)).getD (c :: loc)

/-- The place that a path leads to, whether or not everything on the way exists. -/
def leads (D : Disk) (loc : Location) (comps : List String) : Location := comps.foldl D.enter loc

def passage (D : Disk) (loc : Location) (c : String) : Passage :=
  if isDots c then .through
  else
    match D.entry (D.enter loc c) with
    | some .dir => .through
    | some (.file _) => .blocked
    | none => .missing

/-- The place that a path leads to through directories that exist. -/
def traverse (D : Disk) : Location → List String → Option Location
  | loc, [] => some loc
  | loc, c :: comps =>
    if D.entry loc = some .dir then D.traverse (D.enter loc c) comps else none

/-- The missing directories on the way, up to where something is in the way. -/
def missing (D : Disk) : Location → List String → List Location
  | _, [] => []
  | loc, c :: comps =>
    match D.passage loc c with
    | .through => D.missing (D.enter loc c) comps
    | .missing => D.enter loc c :: D.missing (D.enter loc c) comps
    | .blocked => []

def passes (D : Disk) : Location → List String → Bool
  | _, [] => true
  | loc, c :: comps => D.passage loc c != .blocked && D.passes (D.enter loc c) comps

/-! ## Paths -/

def components (path : String) : List String := (path.toList.splitOn '/').map String.ofList

def start (D : Disk) (path : String) : Location :=
  if path.toList.head? = some '/' then [] else D.cwd

def target (D : Disk) (path : String) : Location := D.leads (D.start path) (components path)

def realpath (D : Disk) (path : String) : Option Location :=
  (D.traverse (D.start path) (components path)).filter fun loc => (D.entry loc).isSome

def pathText (loc : Location) : String :=
  if loc = [] then "/" else String.join (loc.reverse.map fun c => "/" ++ c)

def isDir (D : Disk) (path : String) : Bool :=
  (D.realpath path).any fun loc => D.entry loc = some .dir

/-- The components of the directory of a path: separators at its end and the last component are
dropped. -/
def dirComponents (path : String) : List String :=
  ((components path).reverse.dropWhile fun c => c = "").tail.reverse

/-- The last component of a path may name a file. -/
def namesFile (path : String) : Bool := (components path).getLast?.any fun c => !isDots c

/-- `fopen` for writing; `none` is `NULL`. -/
def fopen (D : Disk) (path : String) : Option Location :=
  if namesFile path then
    (D.traverse (D.start path) (components path)).filter fun loc => D.entry loc ≠ some .dir
  else none

/-! ## Changes -/

def put (D : Disk) (loc : Location) (e : Entry) : Disk :=
  if h : D.entry loc ≠ some .dir ∧ D.entry loc.tail = some .dir then
    { D with
      entry := fun l => if l = loc then some e else D.entry l
      root_dir := by
        rw [if_neg (by rintro rfl; exact h.1 D.root_dir)]
        exact D.root_dir
      cwd_dir := by
        rw [if_neg (by rintro rfl; exact h.1 D.cwd_dir)]
        exact D.cwd_dir
      parent_dir := by
        intro c l hentry
        have hloc : l ≠ loc := by
          rintro rfl
          have hself : c :: l ≠ l := List.cons_ne_self c l
          rw [if_neg hself] at hentry
          exact h.1 (D.parent_dir c l hentry)
        rw [if_neg hloc]
        by_cases heq : c :: l = loc
        · subst heq
          exact h.2
        · rw [if_neg heq] at hentry
          exact D.parent_dir c l hentry
      link_live := by
        intro from_ l hlink
        split_ifs
        · exact Option.some_ne_none e
        · exact D.link_live from_ l hlink }
  else D

def mkdir (D : Disk) (loc : Location) : Disk := if D.entry loc = none then D.put loc .dir else D

def write (D : Disk) (loc : Location) (content : Option (List UInt8)) : Disk :=
  D.put loc (.file content)

/-- Make the missing directories on the way and list them, up to where something is in the way. -/
def makeDirs : Location → List String → Disk × List Location → Disk × List Location
  | _, [], x => x
  | loc, c :: comps, x =>
    match x.1.passage loc c with
    | .through => makeDirs (x.1.enter loc c) comps x
    | .missing =>
      makeDirs (x.1.enter loc c) comps (x.1.mkdir (x.1.enter loc c), x.2 ++ [x.1.enter loc c])
    | .blocked => x

variable {D D' : Disk} {made : List Location} {loc l : Location} {comps : List String}
  {c path : String} {e : Entry}

theorem parent_of_dir (D : Disk) (h : D.entry loc = some .dir) : D.entry loc.tail = some .dir := by
  cases loc with
  | nil => exact D.root_dir
  | cons c loc => exact D.parent_dir c loc (by rw [h]; exact Option.some_ne_none _)

theorem start_dir (D : Disk) (path : String) : D.entry (D.start path) = some .dir := by
  rw [start]
  split_ifs
  · exact D.root_dir
  · exact D.cwd_dir

theorem dir_of_isDots (D : Disk) (hloc : D.entry loc = some .dir) (hdots : isDots c = true) :
    D.entry (D.enter loc c) = some .dir := by
  rw [enter, if_pos hdots]
  split_ifs
  · exact D.parent_of_dir hloc
  · exact hloc

theorem tail_enter_of_none (D : Disk) (hdots : isDots c = false)
    (hnone : D.entry (D.enter loc c) = none) : (D.enter loc c).tail = loc := by
  rw [enter, hdots, if_neg Bool.false_ne_true] at hnone ⊢
  cases hlink : D.link (c :: loc) with
  | none => rfl
  | some l =>
    rw [hlink] at hnone
    exact absurd hnone (D.link_live _ l hlink)

theorem put_of_free (h : D.entry loc ≠ some .dir) (hparent : D.entry loc.tail = some .dir) :
    (D.put loc e).link = D.link ∧ (D.put loc e).cwd = D.cwd ∧
      ∀ l, (D.put loc e).entry l = if l = loc then some e else D.entry l := by
  rw [put, dif_pos ⟨h, hparent⟩]
  exact ⟨rfl, rfl, fun _ => rfl⟩

/-! ## Making directories -/

/-- The second disk is the first one with some missing directories made. -/
structure Made (D : Disk) (made : List Location) (D' : Disk) : Prop where
  link : D'.link = D.link
  cwd : D'.cwd = D.cwd
  missing : ∀ l ∈ made, D.entry l = none
  entry : ∀ l, D'.entry l = if l ∈ made then some .dir else D.entry l

theorem made_nil (D : Disk) : Made D [] D := ⟨rfl, rfl, by simp, by simp⟩

theorem enter_of_link (hlink : D'.link = D.link) (loc : Location) (c : String) :
    D'.enter loc c = D.enter loc c := by
  rw [enter, enter, hlink]

theorem Made.mkdir (h : Made D made D') (hnone : D'.entry loc = none)
    (hparent : D'.entry loc.tail = some .dir) : Made D (made ++ [loc]) (D'.mkdir loc) := by
  have hfree : D'.entry loc ≠ some .dir := by simp [hnone]
  obtain ⟨hlink, hcwd, hentry⟩ := put_of_free (e := .dir) hfree hparent
  rw [Disk.mkdir, if_pos hnone]
  constructor
  · exact hlink.trans h.link
  · exact hcwd.trans h.cwd
  · intro l hl
    rcases List.mem_append.mp hl with hl | hl
    · exact h.missing l hl
    · rw [h.entry] at hnone
      rw [List.mem_singleton.mp hl]
      split_ifs at hnone
      exact hnone
  · intro l
    rw [hentry, h.entry]
    simp only [List.mem_append, List.mem_singleton]
    split_ifs <;> first | rfl | tauto

/-- The directories that are made on the way are those that were missing. -/
theorem Made.makeDirs (h : Made D made D') (hloc : D'.entry loc = some .dir)
    (comps : List String) :
    Made D (makeDirs loc comps (D', made)).2 (makeDirs loc comps (D', made)).1 ∧
      ∀ l, l ∈ (makeDirs loc comps (D', made)).2 ↔ l ∈ made ∨ l ∈ D.missing loc comps := by
  induction comps generalizing loc D' made with
  | nil => exact ⟨h, fun l => by simp [Disk.makeDirs, Disk.missing]⟩
  | cons c comps ih =>
    have henter := enter_of_link h.link loc c
    have hentry := h.entry (D.enter loc c)
    simp only [Disk.makeDirs, Disk.missing, passage, henter]
    cases hdots : isDots c with
    | true =>
      have hdir := henter ▸ D'.dir_of_isDots hloc hdots
      exact ih h hdir
    | false =>
      simp only [Bool.false_eq_true, if_false]
      by_cases hmem : D.enter loc c ∈ made
      · -- another path has made it already
        rw [if_pos hmem] at hentry
        rw [hentry, h.missing _ hmem]
        obtain ⟨hmade, hiff⟩ := ih h hentry
        refine ⟨hmade, fun l => (hiff l).trans ?_⟩
        rw [List.mem_cons, ← or_assoc]
        refine or_congr_left (iff_self_or.mpr ?_)
        rintro rfl
        exact hmem
      · rw [if_neg hmem] at hentry
        rw [hentry]
        cases hkind : D.entry (D.enter loc c) with
        | none =>
          rw [hkind] at hentry
          have htail := henter ▸ D'.tail_enter_of_none hdots (henter.symm ▸ hentry)
          have hmkdir := h.mkdir hentry (htail.symm ▸ hloc)
          obtain ⟨hmade, hiff⟩ := ih hmkdir (by rw [hmkdir.entry, if_pos List.mem_concat_self])
          refine ⟨hmade, fun l => (hiff l).trans ?_⟩
          rw [List.mem_append, List.mem_singleton, List.mem_cons, or_assoc]
        | some e =>
          rw [hkind] at hentry
          cases e with
          | dir => exact ih h hentry
          | file content => exact ⟨h, fun l => by simp⟩

/-! ## Opening files -/

/-- The second disk has the directories of the first one, and those that were made. -/
structure SameDirs (D : Disk) (made : List Location) (D' : Disk) : Prop where
  link : D'.link = D.link
  cwd : D'.cwd = D.cwd
  missing : ∀ l ∈ made, D.entry l = none
  dir : ∀ l, D'.entry l = some .dir ↔ l ∈ made ∨ D.entry l = some .dir

theorem Made.sameDirs (h : Made D made D') : SameDirs D made D' := by
  refine ⟨h.link, h.cwd, h.missing, fun l => ?_⟩
  rw [h.entry]
  split_ifs with hmem
  · simp [hmem]
  · simp [hmem]

theorem SameDirs.write (h : SameDirs D made D') (hfree : D'.entry loc ≠ some .dir)
    (hparent : D'.entry loc.tail = some .dir) (content : Option (List UInt8)) :
    SameDirs D made (D'.write loc content) := by
  obtain ⟨hlink, hcwd, hentry⟩ := put_of_free (e := .file content) hfree hparent
  refine ⟨hlink.trans h.link, hcwd.trans h.cwd, h.missing, fun l => ?_⟩
  rw [Disk.write, hentry, ← h.dir]
  split_ifs with heq
  · subst heq
    simp [hfree]
  · rfl

/-- A path whose directories are there or were made leads on unless something is in the way. -/
theorem SameDirs.traverse (h : SameDirs D made D') (hloc : D'.entry loc = some .dir)
    (hmade : ∀ l ∈ D.missing loc comps, l ∈ made) (c : String) :
    D'.traverse loc (comps ++ [c]) =
      if D.passes loc comps then some (D.leads loc (comps ++ [c])) else none := by
  induction comps generalizing loc with
  | nil => simp [Disk.traverse, hloc, passes, leads, enter_of_link h.link]
  | cons x comps ih =>
    have henter := enter_of_link h.link loc x
    rw [List.cons_append, Disk.traverse, if_pos hloc, henter, passes, leads, List.foldl_cons]
    rw [Disk.missing] at hmade
    cases hdots : isDots x with
    | true =>
      have hthrough : D.passage loc x = .through := by rw [passage, if_pos hdots]
      rw [hthrough] at hmade ⊢
      exact ih (henter ▸ D'.dir_of_isDots hloc hdots) hmade
    | false =>
      cases hentry : D.entry (D.enter loc x) with
      | none =>
        have hmissing : D.passage loc x = .missing := by simp [passage, hdots, hentry]
        rw [hmissing] at hmade ⊢
        rw [List.forall_mem_cons] at hmade
        exact ih ((h.dir _).mpr (.inl hmade.1)) hmade.2
      | some e =>
        cases e with
        | dir =>
          have hthrough : D.passage loc x = .through := by simp [passage, hdots, hentry]
          rw [hthrough] at hmade ⊢
          exact ih ((h.dir _).mpr (.inr hentry)) hmade
        | file content =>
          have hblocked : D.passage loc x = .blocked := by simp [passage, hdots, hentry]
          have hnot : D'.entry (D.enter loc x) ≠ some .dir := by
            rw [ne_eq, h.dir, not_or]
            refine ⟨fun hmem => ?_, by simp [hentry]⟩
            rw [h.missing _ hmem] at hentry
            cases hentry
          rw [hblocked]
          have hnone : D'.traverse (D.enter loc x) (comps ++ [c]) = none := by
            cases comps <;> simp [Disk.traverse, hnot]
          simp [hnone]

def opens (D : Disk) (made : List Location) (path : String) : Bool :=
  namesFile path && D.passes (D.start path) (dirComponents path) &&
    D.entry (D.target path) != some .dir && !made.contains (D.target path)

theorem components_eq (h : namesFile path = true) :
    ∃ c, components path = dirComponents path ++ [c] ∧ isDots c = false := by
  rw [namesFile, Option.any_eq_true] at h
  obtain ⟨c, hlast, hdots⟩ := h
  obtain ⟨comps, hcomps⟩ := List.getLast?_eq_some_iff.mp hlast
  have hne : c ≠ "" := by
    rintro rfl
    simp [isDots] at hdots
  refine ⟨c, ?_, by simpa using hdots⟩
  rw [dirComponents, hcomps]
  simp [hne]

theorem traverse_concat (h : D.traverse loc (comps ++ [c]) = some l) :
    ∃ loc', D.entry loc' = some .dir ∧ D.enter loc' c = l := by
  induction comps generalizing loc with
  | nil =>
    rw [List.nil_append, Disk.traverse] at h
    split_ifs at h with hdir
    exact ⟨loc, hdir, Option.some.inj h⟩
  | cons x comps ih =>
    rw [List.cons_append, Disk.traverse] at h
    split_ifs at h
    exact ih h

theorem free_of_fopen (h : D.fopen path = some l) :
    D.entry l ≠ some .dir ∧ D.entry l.tail = some .dir := by
  rw [Disk.fopen] at h
  split_ifs at h with hnames
  obtain ⟨c, hcomps, hdots⟩ := components_eq hnames
  obtain ⟨htraverse, hfree⟩ := Option.filter_eq_some_iff.mp h
  rw [hcomps] at htraverse
  obtain ⟨loc', hdir, rfl⟩ := traverse_concat htraverse
  refine ⟨by simpa using hfree, ?_⟩
  by_cases hnone : D.entry (D.enter loc' c) = none
  · rw [D.tail_enter_of_none hdots hnone]
    exact hdir
  · cases hl : D.enter loc' c with
    | nil => exact D.root_dir
    | cons x l =>
      rw [hl] at hnone
      exact D.parent_dir x l hnone

theorem SameDirs.fopen (h : SameDirs D made D')
    (hmade : ∀ l ∈ D.missing (D.start path) (dirComponents path), l ∈ made) :
    D'.fopen path = if D.opens made path then some (D.target path) else none := by
  have hstart : D'.start path = D.start path := by rw [start, start, h.cwd]
  have hdir : D'.entry (D.start path) = some .dir := hstart ▸ D'.start_dir path
  rw [Disk.fopen, opens]
  cases hnames : namesFile path with
  | false => simp
  | true =>
    obtain ⟨c, hcomps, -⟩ := components_eq hnames
    rw [target, hstart, hcomps, h.traverse hdir hmade c]
    cases hpasses : D.passes (D.start path) (dirComponents path) with
    | false => simp
    | true =>
      have hiff := h.dir (D.leads (D.start path) (dirComponents path ++ [c]))
      simp only [if_true, Option.filter_some, Bool.true_and]
      refine if_congr ?_ rfl rfl
      simp only [decide_eq_true_eq, ne_eq, hiff, not_or, Bool.and_eq_true, bne_iff_ne,
        Bool.not_eq_true', List.contains_eq_mem, decide_eq_false_iff_not]
      exact and_comm

end Disk

end Mongolite
