import Mongolite.Insert.StreamOut

/-! # Importing JSON lines

`mongo_import` reads batches of 100 lines, drops the blank ones and inserts the
others as a page. A batch without any other line is a page of length zero, which
raises. That every line is an object is not checked. White space is what the C
locale takes for it.
-/

namespace Mongolite

variable {ρ δ : Type}

/-- The pattern `^\s*$`. -/
def isBlank (s : String) : Bool := s.toList.all isSpace

/-- The lines of a batch that are not blank. -/
def jsonLines (batch : List String) : List String := batch.filter fun s => !isBlank s

def importBatches (c : Codec ρ δ) (s : Server δ) :
    List (List String) → ℕ → World δ → Except Failure ℕ × World δ
  | [], count, w => (.ok count, w)
  | batch :: batches, count, w =>
    let json := jsonLines batch
    if !json.all c.validateJson then
      (.error (.raised ("Invalid JSON. Data must be in newline delimited json format " ++
        "(https://ndjson.org/)")), w)
    else
      match rMongoCollectionInsertPage c s json true w with
      | (.error e, w') => (.error e, w')
      | (.ok _, w') => importBatches c s batches (count + json.length) w'

def mongoImport (c : Codec ρ δ) (s : Server δ) (lines : List String) (w : World δ) :
    Except Failure ℕ × World δ :=
  importBatches c s (pages 100 lines) 0 w

/-- A line that is blank or one JSON object that the client can insert. -/
def Codec.WellFormedLine (c : Codec ρ δ) (s : String) : Prop :=
  isBlank s = true ∨
    (c.validateJson s = true ∧ startsWithBrace s = true ∧ (c.encodeJson s).isSome = true)

instance (c : Codec ρ δ) (s : String) : Decidable (c.WellFormedLine s) :=
  inferInstanceAs (Decidable (_ ∨ _))

def Codec.wellFormedBatch (c : Codec ρ δ) (batch : List String) : Bool :=
  batch.all fun s => decide (c.WellFormedLine s)

def Codec.docsOfBatches (c : Codec ρ δ) (batches : List (List String)) : List δ :=
  batches.flatMap fun batch => c.docsOfJson (jsonLines batch)

def Codec.goodBatches (c : Codec ρ δ) (batches : List (List String)) : List (List String) :=
  batches.takeWhile c.wellFormedBatch

/-- The server accepts the documents of the batches in turn, and the driver gets them sent. -/
structure Server.Accepts (s : Server δ) (c : Codec ρ δ) (batches : List (List String))
    (db : List δ) : Prop where
  accepted : s.gate.refusal db (c.docsOfBatches batches) = none
  sent : ∀ batch ∈ batches, jsonLines batch ≠ [] →
    (s.send (c.docsOfJson (jsonLines batch))).failure = none

/-- If the server accepts the documents of the batches before the first bad one, exactly these
are inserted, and their number is returned; where there is a bad batch, an error is raised. -/
def ImportsBatches (c : Codec ρ δ) (s : Server δ) (batches : List (List String))
    (count : ℕ) (w : World δ) (out : Except Failure ℕ × World δ) : Prop :=
  s.Accepts c (c.goodBatches batches) w.docs →
    out.2.docs = w.docs ++ c.docsOfBatches (c.goodBatches batches) ∧
    if batches.all c.wellFormedBatch then
      out.1 = .ok (count + (jsonLines batches.flatten).length)
    else ∃ e, out.1 = .error (.raised e)

def Imports (c : Codec ρ δ) (s : Server δ) (lines : List String) (w : World δ)
    (out : Except Failure ℕ × World δ) : Prop :=
  ImportsBatches c s (pages 100 lines) 0 w out

/-- A bad batch that is noticed: a line of it is no JSON or cannot be encoded, or the driver gets
done with sending it and the server refuses the first document of every message. -/
def NoticesBad (c : Codec ρ δ) (s : Server δ) (batch : List String) (db : List δ) : Prop :=
  (jsonLines batch).all c.validateJson = false ∨ ¬ c.EncodableJson (jsonLines batch) ∨
    (s.send (c.docsOfJson (jsonLines batch))).failure ≠ some .unending ∧
      ∀ b ∈ (s.send (c.docsOfJson (jsonLines batch))).batches, s.gate.admitted db b = 0

/-- Every batch has a line that is not blank, up to the first bad batch, which is noticed. Only
where nothing but blank batches stands between a blank batch and a bad one does the blank one do
no harm. -/
def BatchesHaveText (c : Codec ρ δ) (s : Server δ) : List (List String) → List δ → Prop
  | [], _ => True
  | batch :: batches, db =>
    if c.wellFormedBatch batch then
      if jsonLines batch = [] then
        ∃ blank bad rest, batches = blank ++ bad :: rest ∧ (∀ b ∈ blank, jsonLines b = []) ∧
          c.wellFormedBatch bad = false
      else BatchesHaveText c s batches (db ++ c.docsOfJson (jsonLines batch))
    else NoticesBad c s batch db

variable {c : Codec ρ δ} {s : Server δ} {batch : List String}
  {batches : List (List String)} {w : World δ} {count : ℕ}

theorem wellFormedBatch_iff : c.wellFormedBatch batch = true ↔ ∀ s ∈ batch, c.WellFormedLine s := by
  simp [Codec.wellFormedBatch]

theorem encodable_of_wellFormed (h : c.wellFormedBatch batch = true) :
    (jsonLines batch).all c.validateJson = true ∧ c.EncodableJson (jsonLines batch) := by
  have hline : ∀ s ∈ jsonLines batch, c.validateJson s = true ∧ (c.encodeJson s).isSome = true := by
    intro s hs
    obtain ⟨hmem, hblank⟩ := List.mem_filter.mp hs
    rcases wellFormedBatch_iff.mp h s hmem with hb | ⟨hv, -, he⟩
    · simp [hb] at hblank
    · exact ⟨hv, he⟩
  exact ⟨List.all_eq_true.mpr fun s hs => (hline s hs).1, fun s hs => (hline s hs).2⟩

theorem wellFormed_of_blank (h : jsonLines batch = []) : c.wellFormedBatch batch = true := by
  refine wellFormedBatch_iff.mpr fun s hs => .inl ?_
  by_contra hblank
  have hmem : s ∈ jsonLines batch := List.mem_filter.mpr ⟨hs, by simpa using hblank⟩
  simp [h] at hmem

theorem import_of_invalid (s : Server δ) (batches : List (List String)) (count : ℕ)
    (w : World δ)
    (h : (jsonLines batch).all c.validateJson = false) :
    ∃ e, importBatches c s (batch :: batches) count w = (.error (.raised e), w) := by
  rw [importBatches]
  simp only [h, Bool.not_false, if_true]
  exact ⟨_, rfl⟩

theorem import_of_blank (c : Codec ρ δ) (s : Server δ) (batches : List (List String))
    (count : ℕ) (w : World δ)
    (h : jsonLines batch = []) :
    ∃ e, importBatches c s (batch :: batches) count w = (.error (.raised e), w) := by
  refine ⟨"json_vec must be character string of at least length 1", ?_⟩
  rw [importBatches]
  simp [h, rMongoCollectionInsertPage]

theorem import_of_not_encodable (s : Server δ) (batches : List (List String))
    (count : ℕ) (w : World δ)
    (h : ¬ c.EncodableJson (jsonLines batch)) :
    ∃ e w', importBatches c s (batch :: batches) count w = (.error (.raised e), w') ∧
      w'.docs = w.docs := by
  cases hv : (jsonLines batch).all c.validateJson with
  | false =>
    obtain ⟨e, he⟩ := import_of_invalid s batches count w hv
    exact ⟨e, w, he, rfl⟩
  | true =>
    obtain ⟨out, w', ho, hdocs, hraise, -⟩ := insertPage_of_not_encodable h
    obtain ⟨e, rfl⟩ := hraise rfl
    refine ⟨e, w', ?_, hdocs⟩
    rw [importBatches]
    simp only [hv, Bool.not_true, Bool.false_eq_true, if_false]
    rw [ho]

theorem import_of_refused (batches : List (List String)) (count : ℕ)
    (hne : jsonLines batch ≠ []) (hv : (jsonLines batch).all c.validateJson = true)
    (he : c.EncodableJson (jsonLines batch))
    (hr : ¬ s.Takes w.docs (c.docsOfJson (jsonLines batch))) :
    ∃ e, importBatches c s (batch :: batches) count w = (.error e, { w with
        docs := s.gate.offerBatches (s.send (c.docsOfJson (jsonLines batch))).batches w.docs }) ∧
      (e = .unending ↔ (s.send (c.docsOfJson (jsonLines batch))).failure = some .unending) := by
  obtain ⟨e, hpage, he'⟩ := bulkPage_of_not_takes hr
  refine ⟨e, ?_, he'⟩
  rw [importBatches]
  simp only [hv, Bool.not_true, Bool.false_eq_true, if_false]
  rw [insertPage_of_encodable hne he, hpage]

theorem import_of_inserted (batches : List (List String)) (count : ℕ)
    (hne : jsonLines batch ≠ []) (hv : (jsonLines batch).all c.validateJson = true)
    (he : c.EncodableJson (jsonLines batch))
    (hr : s.Takes w.docs (c.docsOfJson (jsonLines batch))) :
    importBatches c s (batch :: batches) count w =
      importBatches c s batches (count + (jsonLines batch).length)
        { w with docs := w.docs ++ c.docsOfJson (jsonLines batch) } := by
  have htaken : ∃ r, bulkPage s true _ w = _ := bulkPage_of_takes hr
  obtain ⟨r, hpage⟩ := htaken
  rw [importBatches]
  simp only [hv, Bool.not_true, Bool.false_eq_true, if_false]
  rw [insertPage_of_encodable hne he, hpage]

theorem prefix_importBatches (c : Codec ρ δ) (s : Server δ) (batches : List (List String))
    (count : ℕ) (w : World δ) :
    w.docs <+: (importBatches c s batches count w).2.docs := by
  induction batches generalizing count w with
  | nil => exact List.prefix_rfl
  | cons batch batches ih =>
    rcases eq_or_ne (jsonLines batch) [] with hnil | hne
    · obtain ⟨e, h⟩ := import_of_blank c s batches count w hnil
      exact h ▸ List.prefix_rfl
    by_cases he : c.EncodableJson (jsonLines batch)
    · cases hv : (jsonLines batch).all c.validateJson with
      | false =>
        obtain ⟨e, h⟩ := import_of_invalid s batches count w hv
        exact h ▸ List.prefix_rfl
      | true =>
        by_cases hr : s.Takes w.docs (c.docsOfJson (jsonLines batch))
        · rw [import_of_inserted batches count hne hv he hr]
          exact (List.prefix_append w.docs _).trans (ih (count + (jsonLines batch).length)
            { w with docs := w.docs ++ c.docsOfJson (jsonLines batch) })
        · obtain ⟨e, h, -⟩ := import_of_refused batches count hne hv he hr
          exact h ▸ prefix_offerBatches s.gate _ w.docs
    · obtain ⟨e, w', h, hdocs⟩ := import_of_not_encodable s batches count w he
      exact h ▸ hdocs ▸ List.prefix_rfl

/-! ## Batch by batch -/

theorem accepts_nil (s : Server δ) (c : Codec ρ δ) (db : List δ) : s.Accepts c [] db :=
  ⟨rfl, by simp⟩

theorem importsBatches_of_bad (batches : List (List String)) (count : ℕ) (w : World δ)
    (hbad : c.wellFormedBatch batch = false) :
    ImportsBatches c s (batch :: batches) count w
        (importBatches c s (batch :: batches) count w) ↔ NoticesBad c s batch w.docs := by
  have hgoal : ImportsBatches c s (batch :: batches) count w
      (importBatches c s (batch :: batches) count w) ↔
        (importBatches c s (batch :: batches) count w).2.docs = w.docs ∧
          ∃ e, (importBatches c s (batch :: batches) count w).1 = .error (.raised e) := by
    have hgood : c.goodBatches (batch :: batches) = [] := by simp [Codec.goodBatches, hbad]
    rw [ImportsBatches, hgood, imp_iff_right (accepts_nil s c w.docs)]
    simp [hbad, Codec.docsOfBatches]
  have hne : jsonLines batch ≠ [] := by
    intro hnil
    simp [wellFormed_of_blank hnil] at hbad
  rw [hgoal, NoticesBad]
  by_cases he : c.EncodableJson (jsonLines batch)
  · cases hv : (jsonLines batch).all c.validateJson with
    | false =>
      obtain ⟨e, h⟩ := import_of_invalid s batches count w hv
      simp [h]
    | true =>
      have hdocs : c.docsOfJson (jsonLines batch) ≠ [] := by
        rw [← List.length_pos_iff, length_docsOfJson he]
        exact List.length_pos_iff.mpr hne
      by_cases hr : s.Takes w.docs (c.docsOfJson (jsonLines batch))
      · -- the batch goes in, and nothing takes it out again
        rw [import_of_inserted batches count hne hv he hr]
        obtain ⟨more, hmore⟩ := prefix_importBatches c s batches
          (count + (jsonLines batch).length)
          { w with docs := w.docs ++ c.docsOfJson (jsonLines batch) }
        have hsent := s.complete _ hr.1
        constructor
        · rintro ⟨hsame, -⟩
          have hcount := congrArg List.length (hmore.trans hsame)
          simp only [List.length_append] at hcount
          have hpos := List.length_pos_iff.mpr hdocs
          omega
        · rintro (h | h | h)
          · cases h
          · exact absurd he h
          · replace h := h.2
            rw [← offerBatches_eq_self_iff, offerBatches_of_admitted s.gate (by rw [hsent, hr.2]),
              hsent, List.append_right_eq_self] at h
            exact absurd h hdocs
      · obtain ⟨e, h, hunending⟩ := import_of_refused batches count hne hv he hr
        rw [h, ← offerBatches_eq_self_iff, ne_eq, ← hunending]
        cases e <;> simp [he]
  · obtain ⟨e, w', h, hdocs⟩ := import_of_not_encodable s batches count w he
    rw [h]
    simp [hdocs, he]

theorem docsOfBatches_cons (batch : List String) (batches : List (List String)) :
    c.docsOfBatches (batch :: batches) =
      c.docsOfJson (jsonLines batch) ++ c.docsOfBatches batches :=
  List.flatMap_cons

theorem goodBatches_of_good (batches : List (List String)) (h : c.wellFormedBatch batch = true) :
    c.goodBatches (batch :: batches) = batch :: c.goodBatches batches :=
  List.takeWhile_cons_of_pos h

theorem docsOfJson_eq_nil {json : List String} (h : c.EncodableJson json) :
    c.docsOfJson json = [] ↔ json = [] := by
  rw [← List.length_eq_zero_iff, length_docsOfJson h, List.length_eq_zero_iff]

/-- There is a bad batch and no document before it: only blank batches are. -/
theorem no_docs_before_bad_iff :
    c.docsOfBatches (c.goodBatches batches) = [] ∧ batches.all c.wellFormedBatch = false ↔
      ∃ blank bad rest, batches = blank ++ bad :: rest ∧ (∀ b ∈ blank, jsonLines b = []) ∧
        c.wellFormedBatch bad = false := by
  constructor
  · rintro ⟨hdocs, hall⟩
    induction batches with
    | nil => simp at hall
    | cons batch batches ih =>
      cases hgood : c.wellFormedBatch batch with
      | false => exact ⟨[], batch, batches, rfl, by simp, hgood⟩
      | true =>
        rw [goodBatches_of_good _ hgood, docsOfBatches_cons, List.append_eq_nil_iff] at hdocs
        have hblank := (docsOfJson_eq_nil (encodable_of_wellFormed hgood).2).mp hdocs.1
        obtain ⟨blank, bad, rest, rfl, hblanks, hbad⟩ :=
          ih hdocs.2 (by simpa [hgood] using hall)
        refine ⟨batch :: blank, bad, rest, rfl, ?_, hbad⟩
        rintro b (_ | ⟨_, hb⟩)
        · exact hblank
        · exact hblanks b hb
  · rintro ⟨blank, bad, rest, rfl, hblanks, hbad⟩
    refine ⟨?_, by simp [hbad]⟩
    induction blank with
    | nil => simp [Codec.goodBatches, hbad, Codec.docsOfBatches]
    | cons b blank ih =>
      have hb : jsonLines b = [] := hblanks b List.mem_cons_self
      rw [List.cons_append, goodBatches_of_good _ (wellFormed_of_blank hb), docsOfBatches_cons, hb,
        ih fun b' hb' => hblanks b' (List.mem_cons_of_mem b hb')]
      rfl

theorem jsonLines_append (xs ys : List String) :
    jsonLines (xs ++ ys) = jsonLines xs ++ jsonLines ys :=
  List.filter_append xs ys

theorem accepts_cons_iff (batches : List (List String)) (db : List δ)
    (hgood : c.wellFormedBatch batch = true) (hne : jsonLines batch ≠ []) :
    s.Accepts c (c.goodBatches (batch :: batches)) db ↔
      s.Takes db (c.docsOfJson (jsonLines batch)) ∧
        s.Accepts c (c.goodBatches batches) (db ++ c.docsOfJson (jsonLines batch)) := by
  rw [goodBatches_of_good _ hgood]
  constructor
  · rintro ⟨haccepted, hsent⟩
    rw [docsOfBatches_cons] at haccepted
    have hr : s.gate.refusal db (c.docsOfJson (jsonLines batch)) = none := by
      cases hr : s.gate.refusal db (c.docsOfJson (jsonLines batch)) with
      | none => rfl
      | some e =>
        rw [(s.gate.refusal_append_of_some hr).1] at haccepted
        cases haccepted
    rw [s.gate.refusal_append_of_none hr] at haccepted
    exact ⟨⟨hsent batch List.mem_cons_self hne, hr⟩, haccepted,
      fun b hb => hsent b (List.mem_cons_of_mem batch hb)⟩
  · rintro ⟨htakes, haccepts⟩
    refine ⟨?_, ?_⟩
    · rw [docsOfBatches_cons, s.gate.refusal_append_of_none htakes.2]
      exact haccepts.accepted
    · rintro b (_ | ⟨_, hb⟩)
      · exact fun _ => htakes.1
      · exact haccepts.sent b hb

/-- Where the server accepts the documents before the first bad batch, the import does what it
should iff every batch before that one has text and that one is noticed. -/
theorem importsBatches_iff (batches : List (List String)) (count : ℕ) (w : World δ)
    (hacc : s.Accepts c (c.goodBatches batches) w.docs) :
    ImportsBatches c s batches count w (importBatches c s batches count w) ↔
      BatchesHaveText c s batches w.docs := by
  induction batches generalizing count w with
  | nil =>
    have hdocs : c.docsOfBatches (c.goodBatches []) = [] := rfl
    rw [ImportsBatches, imp_iff_right hacc, hdocs]
    simp [importBatches, BatchesHaveText, jsonLines]
  | cons batch batches ih =>
    rw [BatchesHaveText]
    cases hgood : c.wellFormedBatch batch with
    | false =>
      rw [importsBatches_of_bad batches count w hgood, if_neg Bool.false_ne_true]
    | true =>
      rw [if_pos rfl]
      obtain ⟨hv, he⟩ := encodable_of_wellFormed hgood
      split_ifs with hnil
      · obtain ⟨e, h⟩ := import_of_blank c s batches count w hnil
        rw [h, ← no_docs_before_bad_iff, ImportsBatches, imp_iff_right hacc,
          goodBatches_of_good _ hgood, docsOfBatches_cons, hnil]
        simp [Codec.docsOfJson, hgood]
      · obtain ⟨htakes, hrest⟩ := (accepts_cons_iff batches w.docs hgood hnil).mp hacc
        rw [import_of_inserted batches count hnil hv he htakes,
          ← ih (count + (jsonLines batch).length)
            { w with docs := w.docs ++ c.docsOfJson (jsonLines batch) } hrest,
          ImportsBatches, ImportsBatches, imp_iff_right hacc, imp_iff_right hrest,
          goodBatches_of_good _ hgood, docsOfBatches_cons, List.flatten_cons, jsonLines_append,
          List.length_append, List.all_cons, hgood, Bool.true_and, List.append_assoc,
          Nat.add_assoc]

/-- JSON lines are imported as they should be iff, unless the server refuses a document before the
first bad batch, every batch up to there has text and the bad one is noticed. -/
theorem mongoImport_iff (c : Codec ρ δ) (s : Server δ) (lines : List String)
    (w : World δ) : Imports c s lines w (mongoImport c s lines w) ↔
      (s.Accepts c (c.goodBatches (pages 100 lines)) w.docs →
        BatchesHaveText c s (pages 100 lines) w.docs) := by
  constructor
  · intro h hacc
    exact (importsBatches_iff _ 0 w hacc).mp h
  · intro h hacc
    exact (importsBatches_iff _ 0 w hacc).mpr (h hacc) hacc

def acceptAll : Gate String String := fun _ _ => none

/-- One blank line is a batch without text. -/
theorem not_imports_blank_line :
    ¬ Imports plainText acceptAll.inOneMessage [""] ⟨[], []⟩
      (mongoImport plainText acceptAll.inOneMessage [""] ⟨[], []⟩) := by
  intro h
  obtain ⟨-, hreturn⟩ := h ⟨rfl, fun _ _ _ => rfl⟩
  have hpages : pages 100 [""] = [[""]] := pages_of_length_le (by simp) (by simp)
  obtain ⟨e, hraise⟩ := import_of_blank plainText acceptAll.inOneMessage [] 0 ⟨[], []⟩
    (show jsonLines [""] = [] from rfl)
  rw [mongoImport, hpages, hraise] at hreturn
  have hgood : [[""]].all plainText.wellFormedBatch = true := rfl
  rw [if_pos hgood] at hreturn
  cases hreturn

end Mongolite
