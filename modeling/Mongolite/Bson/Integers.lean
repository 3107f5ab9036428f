import Mongolite.Bson.Convert
import Mongolite.Library.Decimal
import Mongolite.Library.Doubles

/-! # Integers on their way into R

The 32-bit and 64-bit integers of BSON become integers, doubles or texts of R.
The unsigned halves of a timestamp become signed integers, of which the smallest
is `NA`.
-/

namespace Mongolite

/-- The integer that a scalar denotes; `NA_INTEGER` denotes none. -/
def RValue.denotes : RValue → Option ℤ
  | .integer i => if i = -2 ^ 31 then none else some i
  | .doubleOfInt i => some (toDouble i)
  | .text s => decimalValue s.toList
  | _ => none

def RValue.denotesAll : RValue → Option (List ℤ)
  | .namedList entries => (entries.map Prod.snd).mapM denotes
  | v => v.denotes.map fun i => [i]

def timestampSeconds (it : BsonIter) : ℕ := readU32le (it.data.drop (it.d1 + 4))

def timestampIncrement (it : BsonIter) : ℕ := readU32le (it.data.drop it.d1)

/-- The integers that an element of an integer type holds, where R is to keep them: an `int64`
beyond `2 ^ 53` only as text. -/
inductive HoldsIntegers (opts : ConvertOptions) (it : BsonIter) : List ℤ → Prop
  | int32 (h : bsonIterType it = some .int32) :
      HoldsIntegers opts it [readI32le (it.data.drop it.d1)]
  | int64 (h : bsonIterType it = some .int64)
      (hmax : opts.bigintAsChar = true ∨ (readI64le (it.data.drop it.d1)).natAbs ≤ 2 ^ 53) :
      HoldsIntegers opts it [readI64le (it.data.drop it.d1)]
  | timestamp (h : bsonIterType it = some .timestamp) :
      HoldsIntegers opts it [(timestampSeconds it : ℤ), (timestampIncrement it : ℤ)]

/-- `ConvertValue` makes a value of the element that denotes these integers. -/
def ConvertsExactly (opts : ConvertOptions) (it : BsonIter) (ns : List ℤ) : Prop :=
  ∃ v, (∀ fuel, convertValue opts (fuel + 1) it = some (.ok ⟨v, [], []⟩)) ∧
    v.denotesAll = some ns

def SignedTimestamp (it : BsonIter) : Prop :=
  bsonIterType it = some .timestamp →
    timestampSeconds it < 2 ^ 31 ∧ timestampIncrement it < 2 ^ 31

variable {opts : ConvertOptions} {it : BsonIter} {ns : List ℤ}

theorem convertsExactly_iff_of_scalar {v : RValue} (hv : convertScalar opts it = some v) :
    ConvertsExactly opts it ns ↔ v.denotesAll = some ns := by
  have harray : bsonIterType it ≠ some .array := by
    intro h
    simp [convertScalar, h] at hv
  have hdocument : bsonIterType it ≠ some .document := by
    intro h
    simp [convertScalar, h] at hv
  have hvalue : ∀ fuel, convertValue opts (fuel + 1) it = some (.ok ⟨v, [], []⟩) := by
    intro fuel
    rw [convertValue, if_neg harray, if_neg hdocument, hv]
  constructor
  · rintro ⟨v', hv', hdenotes⟩
    have heq := (hvalue 0).symm.trans (hv' 0)
    simp only [Option.some.injEq, Except.ok.injEq, Converted.mk.injEq, and_true] at heq
    rwa [heq]
  · exact fun h => ⟨v, hvalue, h⟩

theorem denotes_toInt32_iff {n : ℕ} (h : n < 2 ^ 32) :
    (RValue.integer (toInt32 n)).denotes = some (n : ℤ) ↔ n < 2 ^ 31 := by
  rw [RValue.denotes]
  rcases Nat.lt_or_ge n (2 ^ 31) with hlt | hge
  · rw [toInt32_of_lt hlt, if_neg (by omega)]
    exact iff_of_true rfl hlt
  · have hneg := toInt32_neg hge h
    constructor
    · intro heq
      split_ifs at heq
      have := Option.some.inj heq
      omega
    · omega

/-- An `int32`, an `int64` within bounds, and a timestamp are converted into what denotes the same
integers iff no half of a timestamp needs the highest bit. -/
theorem convertsExactly_iff (h : HoldsIntegers opts it ns) :
    ConvertsExactly opts it ns ↔ SignedTimestamp it := by
  unfold SignedTimestamp
  cases h with
  | int32 htype =>
    refine iff_of_true ?_ fun h => absurd (htype.symm.trans h) (by decide)
    have hv : convertScalar opts it = some (if readI32le (it.data.drop it.d1) = -2 ^ 31
        then .doubleOfInt (readI32le (it.data.drop it.d1))
        else .integer (readI32le (it.data.drop it.d1))) := by
      simp only [convertScalar, htype]
    rw [convertsExactly_iff_of_scalar hv]
    split_ifs with hna
    · have hexact : toDouble (readI32le (it.data.drop it.d1)) = readI32le (it.data.drop it.d1) :=
        toDouble_of_natAbs_le (by rw [hna]; decide)
      simp only [RValue.denotesAll, RValue.denotes, hexact, Option.map_some]
    · simp only [RValue.denotesAll, RValue.denotes, if_neg hna, Option.map_some]
  | int64 htype hmax =>
    refine iff_of_true ?_ fun h => absurd (htype.symm.trans h) (by decide)
    cases hchar : opts.bigintAsChar with
    | true =>
      have hv : convertScalar opts it =
          some (.text (toString (readI64le (it.data.drop it.d1)))) := by
        simp only [convertScalar, htype, hchar, if_true]
      rw [convertsExactly_iff_of_scalar hv]
      simp only [RValue.denotesAll, RValue.denotes, toList_toString, decimalValue_decimal,
        Option.map_some]
    | false =>
      have hv : convertScalar opts it =
          some (.doubleOfInt (readI64le (it.data.drop it.d1))) := by
        simp only [convertScalar, htype, hchar, Bool.false_eq_true, if_false]
      have hexact : toDouble (readI64le (it.data.drop it.d1)) = readI64le (it.data.drop it.d1) :=
        toDouble_of_natAbs_le (by simpa [hchar] using hmax)
      rw [convertsExactly_iff_of_scalar hv]
      simp only [RValue.denotesAll, RValue.denotes, hexact, Option.map_some]
  | timestamp htype =>
    have hv : convertScalar opts it = some (convertTimestamp it) := by
      simp only [convertScalar, htype]
    have hsec := denotes_toInt32_iff (readU32le_lt (it.data.drop (it.d1 + 4)))
    have hinc := denotes_toInt32_iff (readU32le_lt (it.data.drop it.d1))
    rw [convertsExactly_iff_of_scalar hv, imp_iff_right htype, timestampSeconds,
      timestampIncrement, ← hsec, ← hinc]
    simp only [convertTimestamp, RValue.denotesAll, List.map_cons, List.map_nil, List.mapM_cons,
      List.mapM_nil]
    generalize (RValue.integer (toInt32 (readU32le (it.data.drop (it.d1 + 4))))).denotes = s
    generalize (RValue.integer (toInt32 (readU32le (it.data.drop it.d1)))).denotes = i
    cases s <;> cases i <;> simp

/-- The element of `{"t": <timestamp>}`: an increment of 1, and seconds with this highest byte. -/
def timestampElement (b : UInt8) : BsonIter :=
  (bsonIterNext (iterOver [16, 0, 0, 0, 0x11, 0x74, 0, 1, 0, 0, 0, 0, 0, 0, b, 0])).2

theorem convertsExactly_small_timestamp :
    ConvertsExactly ⟨true, false⟩ (timestampElement 0x7F) [2130706432, 1] ↔
      SignedTimestamp (timestampElement 0x7F) :=
  convertsExactly_iff (HoldsIntegers.timestamp rfl)

/-- Seconds of `2 ^ 31` become `NA`. -/
theorem not_convertsExactly_high_bit :
    HoldsIntegers ⟨true, false⟩ (timestampElement 0x80) [2147483648, 1] ∧
      ¬ ConvertsExactly ⟨true, false⟩ (timestampElement 0x80) [2147483648, 1] := by
  refine ⟨HoldsIntegers.timestamp rfl, ?_⟩
  have hv : convertScalar ⟨true, false⟩ (timestampElement 0x80) =
      some (.namedList [([0x74], .integer (-2147483648)), ([0x69], .integer 1)]) := rfl
  rw [convertsExactly_iff_of_scalar hv]
  exact fun h => by cases h

end Mongolite
