import Mathlib.Data.List.Induction
import Mongolite.Bson.Convert
import Mongolite.Bson.Grammar
import Mongolite.Library.CText

/-! # The creation time of an ObjectId

`oid_to_timestamp` takes an ObjectId as raw bytes or as the text that the
conversion makes of it, and reads the first eight hexadecimal digits with
`strtoi`, whose integers are signed.
-/

namespace Mongolite

inductive OidArgument
  | raw (bytes : List UInt8)
  | text (s : String)

/-- `as.character` of a raw byte. -/
def rawDigits (b : UInt8) : List Char := [hexDigit (b.toNat / 16), hexDigit (b.toNat % 16)]

/-- `paste0(oid, collapse = "")` where that is raw. -/
def OidArgument.asText : OidArgument → String
  | raw bytes => String.ofList (bytes.flatMap rawDigits)
  | text s => s

/-- Seconds since 1970; `none` is `NA`. -/
def oidToTimestamp (oid : OidArgument) : Except String (Option ℤ) :=
  if oid.asText.length > 23 then .ok (strtoi ('0' :: 'x' :: oid.asText.toList.take 8))
  else .error "oid invalid"

def creationTime (oid : List UInt8) : ℕ := ofBytes (oid.take 4).reverse

def HoldsOid (it : BsonIter) (oid : Bytes 12) : Prop :=
  bsonIterType it = some .oid ∧ (it.data.drop it.d1).take 12 = oid

/-- The creation time is read back from the raw bytes, and from what `ConvertValue` makes of the
ObjectId wherever it stands. -/
def TimeReadBack (oid : Bytes 12) : Prop :=
  oidToTimestamp (.raw oid) = .ok (some (creationTime oid)) ∧
    ∀ opts it, HoldsOid it oid →
      ∃ s, (∀ fuel, convertValue opts (fuel + 1) it = some (.ok ⟨.text s, [], []⟩)) ∧
        oidToTimestamp (.text s) = .ok (some (creationTime oid))

theorem pushDigit_hexDigit {d : ℕ} (n : ℕ) (h : d < 16) :
    pushDigit 16 n (hexDigit d) = some (16 * n + d) := by
  have hvalue : ∀ d < 16, digitValue (hexDigit d) = some d := by decide
  rw [pushDigit, hvalue d h, Option.bind_some, if_pos h]

theorem foldlM_rawDigits (b : UInt8) (n : ℕ) :
    (rawDigits b).foldlM (pushDigit 16) n = some (b.toNat + 256 * n) := by
  have hlt := b.toNat_lt
  have hhigh := pushDigit_hexDigit n (d := b.toNat / 16) (by omega)
  have hlow := pushDigit_hexDigit (16 * n + b.toNat / 16) (d := b.toNat % 16) (by omega)
  simp only [rawDigits, List.foldlM_cons, List.foldlM_nil, hhigh, hlow, Option.bind_eq_bind,
    Option.bind_some, Option.pure_def, Option.some.injEq]
  omega

theorem foldlM_flatMap_rawDigits (bs : List UInt8) :
    (bs.flatMap rawDigits).foldlM (pushDigit 16) 0 = some (ofBytes bs.reverse) := by
  induction bs using List.reverseRecOn with
  | nil => rfl
  | append_singleton bs b ih =>
    rw [List.flatMap_append, List.foldlM_append, ih, List.reverse_append, List.reverse_singleton,
      List.singleton_append, ofBytes]
    simpa using foldlM_rawDigits b (ofBytes bs.reverse)

theorem length_flatMap_rawDigits (bs : List UInt8) :
    (bs.flatMap rawDigits).length = 2 * bs.length := by
  induction bs with
  | nil => rfl
  | cons b bs ih =>
    rw [List.flatMap_cons, List.length_append, ih, List.length_cons]
    simp only [rawDigits, List.length_cons, List.length_nil]
    omega

theorem take_flatMap_rawDigits (bs : List UInt8) (n : ℕ) :
    (bs.flatMap rawDigits).take (2 * n) = (bs.take n).flatMap rawDigits := by
  induction n generalizing bs with
  | zero => rfl
  | succ n ih =>
    cases bs with
    | nil => rfl
    | cons b bs => simpa [rawDigits, Nat.mul_succ] using ih bs

theorem digitsInBase_creationTime (oid : Bytes 12) :
    digitsInBase 16 ((oid.1.flatMap rawDigits).take 8) = some (creationTime oid) := by
  have hlen : ((oid.1.take 4).flatMap rawDigits).length = 8 := by
    rw [length_flatMap_rawDigits, List.length_take, oid.2]
    rfl
  have hne : (oid.1.take 4).flatMap rawDigits ≠ [] := by
    intro h
    simp [h] at hlen
  rw [take_flatMap_rawDigits oid.1 4, digitsInBase, if_neg hne, foldlM_flatMap_rawDigits,
    creationTime]

theorem oidToTimestamp_raw (oid : Bytes 12) :
    oidToTimestamp (.raw oid) =
      .ok (if creationTime oid < 2 ^ 31 then some (creationTime oid : ℤ) else none) := by
  have hlen : (OidArgument.raw oid).asText.length = 24 := by
    rw [OidArgument.asText, String.length_ofList, length_flatMap_rawDigits, oid.2]
  rw [oidToTimestamp, if_pos (by omega), OidArgument.asText, String.toList_ofList,
    strtoi_hex (digitsInBase_creationTime oid)]

/-- The text that the conversion makes is the one that `paste0` makes. -/
theorem oidToTimestamp_text (oid : Bytes 12) :
    oidToTimestamp (.text (bsonOidToString oid)) = oidToTimestamp (.raw oid) := rfl

theorem convertValue_of_holdsOid {it : BsonIter} {oid : Bytes 12} (h : HoldsOid it oid)
    (opts : ConvertOptions) (fuel : ℕ) :
    convertValue opts (fuel + 1) it = some (.ok ⟨.text (bsonOidToString oid), [], []⟩) := by
  obtain ⟨htype, hbytes⟩ := h
  have hscalar : convertScalar opts it = some (.text (bsonOidToString oid)) := by
    simp only [convertScalar, htype, hbytes]
  rw [convertValue, if_neg (by simp [htype]), if_neg (by simp [htype]), hscalar]

/-- The creation time is read back iff it is before 2038. -/
theorem timeReadBack_iff (oid : Bytes 12) : TimeReadBack oid ↔ creationTime oid < 2 ^ 31 := by
  have hraw := oidToTimestamp_raw oid
  constructor
  · rintro ⟨h, -⟩
    rw [hraw] at h
    by_contra hlarge
    rw [if_neg hlarge] at h
    cases h
  · intro h
    rw [if_pos h] at hraw
    refine ⟨hraw, fun opts it hit => ⟨bsonOidToString oid, ?_, ?_⟩⟩
    · exact convertValue_of_holdsOid hit opts
    · rw [oidToTimestamp_text, hraw]

/-- An ObjectId of the first second that a signed number does not hold has the time `NA`. -/
theorem not_timeReadBack_2038 :
    ¬ TimeReadBack ⟨[0x80, 0, 0, 0, 0, 0, 0, 0, 0, 0, 0, 0], rfl⟩ ∧
      oidToTimestamp (.raw [0x80, 0, 0, 0, 0, 0, 0, 0, 0, 0, 0, 0]) = .ok none := by
  have hna := oidToTimestamp_raw ⟨[0x80, 0, 0, 0, 0, 0, 0, 0, 0, 0, 0, 0], rfl⟩
  rw [if_neg (by decide)] at hna
  refine ⟨?_, hna⟩
  rintro ⟨h, -⟩
  rw [hna] at h
  cases h

end Mongolite
