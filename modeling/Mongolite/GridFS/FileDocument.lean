import Mongolite.Bson.Convert
import Mongolite.Bson.Step
import Mathlib.Tactic.MkIffOfInductiveProp

/-! # File documents

`_mongoc_gridfs_file_new_from_bson` reads a file object from a document of the
files collection. A field of an unexpected type makes it return `NULL`; unknown
fields are skipped, and of equal fields the last one counts.
-/

namespace Mongolite

def ascii (s : String) : List UInt8 := s.toList.map fun c => UInt8.ofNat c.toNat

/-- `mongoc_gridfs_file_t`, as far as it is read from a document; the id is the element that holds
it. -/
structure GridfsFile where
  filesId : Option BsonIter
  length : ℤ
  chunkSize : ℤ
  uploadDate : ℤ
  md5 : Option (List UInt8)
  filename : Option (List UInt8)
  contentType : Option (List UInt8)
  aliases : Option Bson
  metadata : Option Bson

def GridfsFile.zero : GridfsFile := ⟨none, 0, 0, 0, none, none, none, none, none⟩

/-- The cast of a double to `int64_t`: towards zero. Out of range it is undefined; the value here is
the one that processors give. -/
def doubleToInt64 (bytes : List UInt8) : ℤ :=
  let bits := ofBytes bytes
  let exponent := bits / 2 ^ 52 % 2 ^ 11
  let magnitude : ℕ := (2 ^ 52 + bits % 2 ^ 52) * 2 ^ (exponent - 1075) / 2 ^ (1075 - exponent)
  if magnitude ≥ 2 ^ 63 then -2 ^ 63
  else if bits ≥ 2 ^ 63 then -magnitude
  else magnitude

def bsonIterHoldsNumber (it : BsonIter) : Prop :=
  bsonIterType it = some .int32 ∨ bsonIterType it = some .int64 ∨ bsonIterType it = some .double

instance : DecidablePred bsonIterHoldsNumber :=
  fun _ => inferInstanceAs (Decidable (_ ∨ _ ∨ _))

def bsonIterAsInt64 (it : BsonIter) : ℤ :=
  let value := it.data.drop it.d1
  match bsonIterType it with
  | some .bool => if byteAt it.data it.d1 ≠ 0 then 1 else 0
  | some .double => doubleToInt64 (value.take 8)
  | some .int64 => readI64le value
  | some .int32 => readI32le value
  | _ => 0

/-- `bson_iter_utf8`, as a C string. -/
def bsonIterUtf8 (it : BsonIter) : List UInt8 := cString (it.data.drop it.d2)

/-- One round of the loop over the elements; `none` is the label `failure`. -/
def readFileField (it : BsonIter) (file : GridfsFile) : Option GridfsFile :=
  let key := bsonIterKey it
  if key = ascii "_id" then some { file with filesId := some it }
  else if key = ascii "length" then
    if ¬ bsonIterHoldsNumber it then none else some { file with length := bsonIterAsInt64 it }
  else if key = ascii "chunkSize" then
    if ¬ bsonIterHoldsNumber it then none
    else if bsonIterAsInt64 it > 2 ^ 31 - 1 ∨ bsonIterAsInt64 it ≤ 0 then none
    else some { file with chunkSize := bsonIterAsInt64 it }
  else if key = ascii "uploadDate" then
    if bsonIterType it ≠ some .dateTime then none
    else some { file with uploadDate := readI64le (it.data.drop it.d1) }
  else if key = ascii "md5" then
    if bsonIterType it ≠ some .utf8 then none else some { file with md5 := bsonIterUtf8 it }
  else if key = ascii "filename" then
    if bsonIterType it ≠ some .utf8 then none else some { file with filename := bsonIterUtf8 it }
  else if key = ascii "contentType" then
    if bsonIterType it ≠ some .utf8 then none else some { file with contentType := bsonIterUtf8 it }
  else if key = ascii "aliases" then
    if bsonIterType it ≠ some .array then none
    else (bsonInitStatic it.embedded).map fun b => { file with aliases := some b }
  else if key = ascii "metadata" then
    if bsonIterType it ≠ some .document then none
    else (bsonInitStatic it.embedded).map fun b => { file with metadata := some b }
  else some file

/-- The loop over the elements; the outer `none` means that it did not end within `fuel` rounds. -/
def readFileFields : ℕ → BsonIter → GridfsFile → Option (Option GridfsFile)
  | 0, _, _ => none
  | fuel + 1, it, file =>
    match bsonIterNext it with
    | (false, _) => some (some file)
    | (true, it') =>
      match readFileField it' file with
      | none => some none
      | some file' => readFileFields fuel it' file'

/-- `_mongoc_gridfs_file_new_from_bson`; the inner `none` is `NULL`. -/
def mongocGridfsFileNewFromBson (data : Bson) : Option (Option GridfsFile) :=
  readFileFields data.bytes.length (bsonIterInit data) .zero

/-! ## The documents that can be read -/

variable {it it' : BsonIter} {data : List UInt8}

@[mk_iff]
structure FieldReadable (it : BsonIter) : Prop where
  length : bsonIterKey it = ascii "length" → bsonIterHoldsNumber it
  chunkSize : bsonIterKey it = ascii "chunkSize" →
    bsonIterHoldsNumber it ∧ 1 ≤ bsonIterAsInt64 it ∧ bsonIterAsInt64 it ≤ 2 ^ 31 - 1
  uploadDate : bsonIterKey it = ascii "uploadDate" → bsonIterType it = some .dateTime
  text : bsonIterKey it ∈ [ascii "md5", ascii "filename", ascii "contentType"] →
    bsonIterType it = some .utf8
  aliases : bsonIterKey it = ascii "aliases" →
    bsonIterType it = some .array ∧ WellFramed it.embedded
  metadata : bsonIterKey it = ascii "metadata" →
    bsonIterType it = some .document ∧ WellFramed it.embedded

inductive ElementOf : BsonIter → BsonIter → Prop
  | next {it it' : BsonIter} (hnext : bsonIterNext it = (true, it')) : ElementOf it it'
  | later {it it' el : BsonIter} (hnext : bsonIterNext it = (true, it')) (h : ElementOf it' el) :
      ElementOf it el

def FileReadable (d : Bson) : Prop := ∀ el, ElementOf (bsonIterInit d) el → FieldReadable el

theorem bsonInitStatic_isSome_iff : (bsonInitStatic data).isSome ↔ WellFramed data := by
  constructor
  · intro h
    obtain ⟨d, hd⟩ := Option.isSome_iff_exists.mp h
    exact bytes_of_bsonInitStatic hd ▸ d.framed
  · intro h
    have hd := bsonInitStatic_bytes ⟨data, h⟩
    simp only [hd, Option.isSome_some]

theorem readFileField_isSome_iff (it : BsonIter) (file : GridfsFile) :
    (readFileField it file).isSome ↔ FieldReadable it := by
  rw [fieldReadable_iff, readFileField]
  generalize bsonIterKey it = key
  by_cases hkey : key ∈ [ascii "_id", ascii "length", ascii "chunkSize", ascii "uploadDate",
      ascii "md5", ascii "filename", ascii "contentType", ascii "aliases", ascii "metadata"]
  · simp only [List.mem_cons, List.not_mem_nil, or_false] at hkey
    rcases hkey with rfl | rfl | rfl | rfl | rfl | rfl | rfl | rfl | rfl
    case inr.inr.inl =>
      simp +decide only [false_imp_iff, true_imp_iff, true_and, and_true, if_false, if_true]
      split_ifs with hnumber hrange
      · simp only [Option.isSome_none, Bool.false_eq_true, false_iff]
        omega
      · simp only [Option.isSome_some, hnumber, true_and, true_iff]
        omega
      · simp [hnumber]
    case inr.inr.inr.inr.inr.inr.inr.inl | inr.inr.inr.inr.inr.inr.inr.inr =>
      simp +decide [← bsonInitStatic_isSome_iff]
      split_ifs with htype <;> simp [htype]
    all_goals simp +decide
  · simp only [List.mem_cons, List.not_mem_nil, or_false, not_or] at hkey
    simp [hkey]

theorem not_elementOf {el : BsonIter} (hnext : bsonIterNext it = (false, it')) :
    ¬ ElementOf it el := by
  rintro (h | ⟨h, -⟩) <;> simp [h] at hnext

theorem forall_elementOf_iff {P : BsonIter → Prop} (hnext : bsonIterNext it = (true, it')) :
    (∀ el, ElementOf it el → P el) ↔ P it' ∧ ∀ el, ElementOf it' el → P el := by
  constructor
  · exact fun h => ⟨h it' (.next hnext), fun el hel => h el (.later hnext hel)⟩
  · rintro ⟨hhere, hlater⟩ el (h | ⟨h, hel⟩)
    all_goals
      obtain rfl := (Prod.ext_iff.mp (hnext.symm.trans h)).2
    · exact hhere
    · exact hlater el hel

theorem readFileFields_spec (fuel : ℕ) (it : BsonIter) (file : GridfsFile)
    (hfuel : it.remaining < fuel) :
    ∃ r, readFileFields fuel it file = some r ∧
      (r.isSome ↔ ∀ el, ElementOf it el → FieldReadable el) := by
  induction fuel generalizing it file with
  | zero => exact absurd hfuel (Nat.not_lt_zero _)
  | succ fuel ih =>
    rw [readFileFields]
    rcases hnext : bsonIterNext it with ⟨_ | _, it'⟩
    · refine ⟨some file, rfl, ?_⟩
      simpa using fun el hel => absurd hel (not_elementOf hnext)
    · obtain ⟨key, hmove⟩ := movesTo_of_next hnext
      have hless := hmove.remaining_lt
      have hfield := readFileField_isSome_iff it' file
      rw [forall_elementOf_iff hnext]
      cases hr : readFileField it' file with
      | none =>
        rw [hr] at hfield
        refine ⟨none, by simp only [hr], ?_⟩
        simp only [Option.isSome_none, Bool.false_eq_true, false_iff] at hfield ⊢
        exact fun h => hfield h.1
      | some file' =>
        rw [hr] at hfield
        obtain ⟨r, hrun, hiff⟩ := ih it' file' (by omega)
        refine ⟨r, by simpa only [hr] using hrun, hiff.trans ?_⟩
        simp only [Option.isSome_some, true_iff] at hfield
        exact (and_iff_right hfield).symm

/-- A file is read from a document if and only if all its fields are of the expected types. -/
theorem newFromBson_spec (d : Bson) :
    ∃ r, mongocGridfsFileNewFromBson d = some r ∧ (r.isSome ↔ FileReadable d) := by
  have hfive := d.framed.five_le
  refine readFileFields_spec d.bytes.length (bsonIterInit d) .zero ?_
  change d.bytes.length - 4 < d.bytes.length
  omega

end Mongolite
