import Mathlib.Algebra.Group.Nat.Defs
import Mathlib.Data.Int.Notation
import Mathlib.Data.Nat.Notation
import Mathlib.Tactic.SplitIfs

/-! # Decimal numbers

Decimal digits with a sign and padded with zeros, as `printf` writes them, and
the numbers they stand for.
-/

namespace Mongolite

def zeroPad (width : ℕ) (digits : List Char) : List Char :=
  List.replicate (width - digits.length) '0' ++ digits

/-- The format `%0wd`: the sign counts towards the width `w`. -/
def decimal (width : ℕ) (x : ℤ) : List Char :=
  if x < 0 then '-' :: zeroPad (width - 1) (Nat.toDigits 10 x.natAbs)
  else zeroPad width (Nat.toDigits 10 x.natAbs)

def digitsValue (cs : List Char) : Option ℕ :=
  if cs ≠ [] ∧ cs.all Char.isDigit then some (Nat.ofDigitChars 10 cs 0) else none

/-- The number that digits with an optional minus sign stand for. -/
def decimalValue : List Char → Option ℤ
  | '-' :: cs => (digitsValue cs).map fun n => -(n : ℤ)
  | cs => (digitsValue cs).map fun n => (n : ℤ)

theorem isDigit_of_mem_zeroPad {width n : ℕ} {c : Char}
    (h : c ∈ zeroPad width (Nat.toDigits 10 n)) : c.isDigit := by
  rcases List.mem_append.mp h with h | h
  · rw [List.eq_of_mem_replicate h]
    rfl
  · exact Nat.isDigit_of_mem_toDigits (by decide) (by decide) h

theorem zeroPad_ne_nil (width n : ℕ) : zeroPad width (Nat.toDigits 10 n) ≠ [] := by
  simp [zeroPad, Nat.toDigits_ne_nil]

@[simp] theorem digitsValue_zeroPad (width n : ℕ) :
    digitsValue (zeroPad width (Nat.toDigits 10 n)) = some n := by
  have hall : (zeroPad width (Nat.toDigits 10 n)).all Char.isDigit = true :=
    List.all_eq_true.mpr fun c hc => isDigit_of_mem_zeroPad hc
  rw [digitsValue, if_pos ⟨zeroPad_ne_nil width n, hall⟩, zeroPad, Nat.ofDigitChars_append,
    Nat.ofDigitChars_replicate_zero, Nat.mul_zero, Nat.ofDigitChars_ten_toDigits]

theorem length_zeroPad {width n : ℕ} (hwidth : 0 < width) (h : n < 10 ^ width) :
    (zeroPad width (Nat.toDigits 10 n)).length = width := by
  have hle := (Nat.length_toDigits_le_iff (by decide) hwidth).mpr h
  rw [zeroPad, List.length_append, List.length_replicate]
  omega

theorem decimalValue_of_digits {cs : List Char} (h : ∀ c ∈ cs, c.isDigit) :
    decimalValue cs = (digitsValue cs).map fun n => (n : ℤ) := by
  unfold decimalValue
  split
  · have hminus := h '-' List.mem_cons_self
    exact absurd hminus (by decide)
  · rfl

@[simp] theorem decimalValue_decimal (width : ℕ) (x : ℤ) :
    decimalValue (decimal width x) = some x := by
  unfold decimal
  split_ifs with hneg
  · rw [decimalValue, digitsValue_zeroPad]
    have hval : -(x.natAbs : ℤ) = x := by omega
    exact congrArg some hval
  · rw [decimalValue_of_digits fun c hc => isDigit_of_mem_zeroPad hc, digitsValue_zeroPad]
    have hval : (x.natAbs : ℤ) = x := by omega
    exact congrArg some hval

theorem toList_toString (x : ℤ) : (toString x).toList = decimal 0 x := by
  rw [Int.toString_eq_repr, Int.repr_eq_if, decimal]
  split_ifs with hpos hneg hneg
  · omega
  · have habs : x.toNat = x.natAbs := by omega
    rw [Nat.toList_repr, habs]
    simp [zeroPad]
  · have habs : (-x).toNat = x.natAbs := by omega
    rw [String.toList_append, Nat.toList_repr, habs]
    simp [zeroPad]
  · omega

end Mongolite
