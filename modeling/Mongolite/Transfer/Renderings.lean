import Mongolite.Insert.Import
import Mongolite.Transfer.Draining
import Mongolite.Transfer.ReaderFile
import Mongolite.Transfer.RelaxedRenderer

/-! # Documents as JSON

Four functions give the JSON text of a document to R. The driver returns `NULL`
for a document that it cannot render: one function makes `NA` of that, two make
an empty string, and one reads through the pointer.
-/

namespace Mongolite

/-- What a function returns: a string or `NA`, unless it raises or reads through a null pointer. -/
inductive Rendering where
  | string (s : String)
  | na
  | error (e : String)
  | fault
  deriving DecidableEq, Repr

/-- `Rf_mkCharCE`, which looks for the end of its argument. -/
def mkCharCE : Option String → Rendering
  | none => .fault
  | some str => .string (String.ofList (str.toList.takeWhile (· ≠ '\x00')))

/-- `Rf_mkCharLenCE` with the length that the driver gives, which is zero for `NULL`. -/
def mkCharLenCE (str : Option String) : String := str.getD ""

/-- `as.character` of a `bson` object. -/
def rBsonToJson (r : JsonRenderer) (d : Bson) : Rendering := mkCharCE (r.render d)

/-- `bson_to_str`, by which an iterator renders. -/
def bsonToStr (r : JsonRenderer) : Option Bson → Rendering
  | none => .na
  | some d =>
    match r.render d with
    | none => .na
    | some str => .string (mkCharLenCE (some str))

/-- An element of `R_mongo_cursor_next_json`. -/
def nextJsonElement (r : JsonRenderer) (d : Bson) : String := mkCharLenCE (r.render d)

/-- An element of `R_bson_reader_file` as JSON. -/
def readerFileElement (r : JsonRenderer) (d : Bson) : String := mkCharLenCE (r.render d)

def renderings (r : JsonRenderer) (d : Bson) : List Rendering :=
  [rBsonToJson r d, bsonToStr r (some d), .string (nextJsonElement r d),
    .string (readerFileElement r d)]

/-- An error or `NA` tells of a failure. -/
def Rendering.Signals : Rendering → Prop
  | na | error _ => True
  | string _ | fault => False

/-- All give the same text, or all tell of the failure. -/
def RenderersAgree (r : JsonRenderer) (d : Bson) : Prop :=
  (∃ t, t ≠ "" ∧ ∀ x ∈ renderings r d, x = .string t) ∨ ∀ x ∈ renderings r d, x.Signals

/-- The next documents as JSON, at most `n`. -/
def rMongoCursorNextJson (r : JsonRenderer) :
    Numeric → Cursor Bson → Except String (List String) × Cursor Bson :=
  nextDocuments (nextJsonElement r)

def writeLines (page : List String) : List Char := page.flatMap fun s => s.toList ++ ['\n']

/-- The lines of a text file, of which the last may lack its end. -/
def readLines : List Char → List (List Char)
  | [] => []
  | c :: cs =>
    if c = '\n' then [] :: readLines cs
    else
      match readLines cs with
      | [] => [[c]]
      | line :: lines => (c :: line) :: lines

/-- `mongo_export` on a cursor: the count it returns, or its error, and what it wrote. -/
def mongoExport (r : JsonRenderer) (fuel : ℕ) (cur : Cursor Bson) :
    Option (Except String ℕ × List Char) :=
  writePages (rMongoCursorNextJson r) writeLines 100 fuel cur 0 []

/-- An export raises, or writes a line for every document, none of which an import skips. -/
def ExportsLines (docs : List Bson) : Option (Except String ℕ × List Char) → Prop
  | none => False
  | some (.error _, _) => True
  | some (.ok _, out) => (readLines out).length = docs.length ∧
      jsonLines ((readLines out).map String.ofList) = (readLines out).map String.ofList

variable {r : JsonRenderer} {d : Bson} {t : String}

theorem mkCharCE_render (h : r.render d = some t) : rBsonToJson r d = .string t := by
  have hnul : t.toList.takeWhile (· ≠ '\x00') = t.toList := by
    rw [List.takeWhile_eq_self_iff]
    intro c hc
    simpa using (r.escaped d t h c hc).2
  rw [rBsonToJson, h, mkCharCE, hnul, String.ofList_toList]

theorem not_isBlank_of_render (h : r.render d = some t) : isBlank t = false := by
  have hbrace := r.braced d t h
  by_contra hblank
  rw [Bool.not_eq_false, isBlank, List.all_eq_true] at hblank
  have hdrop : t.toList.dropWhile isSpace = [] := List.dropWhile_eq_nil_iff.mpr hblank
  rw [startsWithBrace, hdrop] at hbrace
  cases hbrace

theorem renderersAgree_iff (r : JsonRenderer) (d : Bson) :
    RenderersAgree r d ↔ (r.render d).isSome = true := by
  cases hrender : r.render d with
  | none =>
    refine iff_of_false ?_ Bool.false_ne_true
    have hfault : Rendering.fault ∈ renderings r d := by
      simp [renderings, rBsonToJson, hrender, mkCharCE]
    rintro (⟨t, -, hall⟩ | hall)
    · cases hall _ hfault
    · exact hall _ hfault
  | some t =>
    refine iff_of_true (.inl ⟨t, ?_, ?_⟩) rfl
    · rintro rfl
      exact Bool.noConfusion (not_isBlank_of_render hrender)
    · have hfirst := mkCharCE_render hrender
      simp [renderings, hfirst, bsonToStr, nextJsonElement, readerFileElement, hrender, mkCharLenCE]

/-! ## Exported lines -/

theorem readLines_line {line : List Char} (h : '\n' ∉ line) (rest : List Char) :
    readLines (line ++ '\n' :: rest) = line :: readLines rest := by
  induction line with
  | nil => rfl
  | cons c line ih =>
    rw [List.mem_cons, not_or] at h
    rw [List.cons_append, readLines, if_neg (Ne.symm h.1), ih h.2]

theorem readLines_writeLines {page : List String} (h : ∀ s ∈ page, '\n' ∉ s.toList) :
    readLines (writeLines page) = page.map String.toList := by
  induction page with
  | nil => rfl
  | cons s page ih =>
    rw [List.forall_mem_cons] at h
    have hwrite : writeLines (s :: page) = s.toList ++ '\n' :: writeLines page := by
      simp [writeLines]
    rw [hwrite, readLines_line h.1, ih h.2, List.map_cons]

theorem newline_notMem_nextJsonElement (r : JsonRenderer) (d : Bson) :
    '\n' ∉ (nextJsonElement r d).toList := by
  unfold nextJsonElement mkCharLenCE
  cases hrender : r.render d with
  | none => simp
  | some t => exact fun hmem => (r.escaped d t hrender _ hmem).1 rfl

theorem isBlank_nextJsonElement (r : JsonRenderer) (d : Bson) :
    isBlank (nextJsonElement r d) = !(r.render d).isSome := by
  unfold nextJsonElement mkCharLenCE
  cases hrender : r.render d with
  | none => rfl
  | some t => exact not_isBlank_of_render hrender

theorem writeLines_append (page page' : List String) :
    writeLines (page ++ page') = writeLines page ++ writeLines page' := List.flatMap_append

theorem mongoExport_fresh {docs : List Bson} {failure : Option String} {fuel : ℕ}
    (hfuel : docs.length < fuel) :
    mongoExport r fuel (.fresh docs failure) =
      some (failure.elim (.ok docs.length) .error,
        writeLines ((dumped failure 100 docs).map (nextJsonElement r))) := by
  rw [mongoExport, rMongoCursorNextJson, writePages_fresh rfl writeLines_append (by decide)
    (by decide) 0 [] hfuel, Nat.zero_add, List.nil_append]

/-- An export raises where the cursor fails, and otherwise has no blank line iff every document can
be rendered. -/
theorem exportsLines_iff (r : JsonRenderer) (docs : List Bson) (failure : Option String) {fuel : ℕ}
    (hfuel : docs.length < fuel) :
    ExportsLines docs (mongoExport r fuel (.fresh docs failure)) ↔
      failure.isSome = true ∨ ∀ d ∈ docs, (r.render d).isSome = true := by
  rw [mongoExport_fresh hfuel]
  cases failure with
  | some e => exact iff_of_true trivial (.inl rfl)
  | none =>
    have hlines : readLines (writeLines ((dumped none 100 docs).map (nextJsonElement r))) =
        (docs.map (nextJsonElement r)).map String.toList := by
      refine readLines_writeLines ?_
      intro s hs
      obtain ⟨d, -, rfl⟩ := List.mem_map.mp hs
      exact newline_notMem_nextJsonElement r d
    simp only [ExportsLines, Option.elim_none, hlines]
    simp [jsonLines, isBlank_nextJsonElement]

/-- The renderers agree on a document iff it can be rendered, and an export writes a line for every
document that an import takes iff all of them can, unless it raises. -/
theorem renderings_iff (r : JsonRenderer) (d : Bson) (docs : List Bson)
    (failure : Option String) :
    (RenderersAgree r d ↔ (r.render d).isSome = true) ∧
      (ExportsLines docs (mongoExport r (docs.length + 1) (.fresh docs failure)) ↔
        failure.isSome = true ∨ ∀ d ∈ docs, (r.render d).isSome = true) :=
  ⟨renderersAgree_iff r d, exportsLines_iff r docs failure (Nat.lt_succ_self _)⟩

/-- Of a document with invalid text, one renderer makes `NA`, two an empty string, and one reads
through a null pointer; an export writes a blank line for it. -/
theorem not_renderersAgree_invalidText :
    renderings relaxedRenderer invalidTextDoc = [.fault, .na, .string "", .string ""] ∧
      ¬ RenderersAgree relaxedRenderer invalidTextDoc ∧
      ¬ ExportsLines [invalidTextDoc]
        (mongoExport relaxedRenderer 2 (.fresh [invalidTextDoc] none)) := by
  have hrender := render_invalidTextDoc
  refine ⟨by simp [renderings, rBsonToJson, bsonToStr, nextJsonElement, readerFileElement, hrender,
    mkCharCE, mkCharLenCE], ?_, ?_⟩
  · rw [renderersAgree_iff, hrender]
    exact Bool.false_ne_true
  · rw [exportsLines_iff _ _ _ (by decide)]
    simp [hrender]

end Mongolite
