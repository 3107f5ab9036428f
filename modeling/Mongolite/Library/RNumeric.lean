import Mathlib.Algebra.Order.Ring.Unbundled.Rat
import Mathlib.Data.List.TakeWhile
import Mathlib.Data.Nat.Digits.Defs
import Mathlib.Data.Rat.Cast.Order

/-! # Numbers of R

Numeric scalars as `asInteger` and the comparison operators see them, and the
text of a count. `as.character` writes a number in scientific notation where
that is shorter, and `as.numeric` reads either form back.
-/

namespace Mongolite

inductive Numeric where
  | real (q : ℚ)
  | posInf
  | negInf
  | nan
  deriving DecidableEq

namespace Numeric

/-- `asInteger`: truncate towards zero; `none` is `NA`, also for what does not fit an `int`. -/
def asInteger : Numeric → Option ℤ
  | real q => if 2 ^ 31 ≤ q ∨ q ≤ -2 ^ 31 then none else some (q.num.tdiv q.den)
  | posInf | negInf | nan => none

/-- The comparison `n < x`; `none` is `NA`. -/
def exceeds : Numeric → ℕ → Option Bool
  | real q, n => some (decide ((n : ℚ) < q))
  | posInf, _ => some true
  | negInf, _ => some false
  | nan, _ => none

theorem asInteger_natCast {n : ℕ} (h : n < 2 ^ 31) : asInteger (real n) = some (n : ℤ) := by
  have h₁ : ¬ (2 ^ 31 : ℚ) ≤ n := by
    rw [not_le]
    exact_mod_cast h
  have h₂ : ¬ (n : ℚ) ≤ -2 ^ 31 := by
    rw [not_le]
    have : (0 : ℚ) ≤ n := by exact_mod_cast Nat.zero_le n
    exact lt_of_lt_of_le (by decide) this
  simp [asInteger, h₁, h₂]

theorem exceeds_natCast (m n : ℕ) : exceeds (real n) m = some (decide (m < n)) := by
  simp [exceeds]

end Numeric

/-- The text of a non-negative whole number: its decimal digits, or its significant digits and a
decimal exponent; digits are listed from the last to the first. -/
inductive NumberText where
  | fixed (digits : List ℕ)
  | scientific (digits : List ℕ) (exponent : ℕ)
  deriving DecidableEq, Repr

def scientificWidth (digits : List ℕ) (exponent : ℕ) : ℕ :=
  (if digits.length ≤ 1 then 1 else digits.length + 1) + (if exponent < 100 then 4 else 5)

/-- `as.character` of a count: fixed notation unless scientific notation is shorter. -/
def asCharacter (n : ℕ) : NumberText :=
  let digits := Nat.digits 10 n
  let significant := digits.dropWhile (· == 0)
  if digits.length ≤ scientificWidth significant (digits.length - 1) then .fixed digits
  else .scientific significant (digits.length - 1)

def asNumeric : NumberText → ℕ
  | .fixed digits => Nat.ofDigits 10 digits
  | .scientific digits exponent =>
    Nat.ofDigits 10 digits * 10 ^ (exponent + 1 - digits.length)

theorem ofDigits_zeros (zs : List ℕ) (h : ∀ d ∈ zs, d = 0) (ds : List ℕ) :
    Nat.ofDigits 10 (zs ++ ds) = Nat.ofDigits 10 ds * 10 ^ zs.length := by
  induction zs with
  | nil => simp
  | cons z zs ih =>
    have hz : z = 0 := h z List.mem_cons_self
    have ht : ∀ d ∈ zs, d = 0 := fun d hd => h d (List.mem_cons_of_mem z hd)
    rw [List.cons_append, Nat.ofDigits_cons, ih ht, hz, List.length_cons, Nat.pow_succ]
    ring

@[simp] theorem asNumeric_asCharacter (n : ℕ) : asNumeric (asCharacter n) = n := by
  unfold asCharacter
  generalize hds : Nat.digits 10 n = ds
  have hn : Nat.ofDigits 10 ds = n := hds ▸ Nat.ofDigits_digits 10 n
  by_cases hw : ds.length ≤ scientificWidth (ds.dropWhile (· == 0)) (ds.length - 1)
  · simp only [hw, if_true, asNumeric, hn]
  · simp only [hw, if_false, asNumeric]
    have hlen : (ds.takeWhile (· == 0)).length + (ds.dropWhile (· == 0)).length = ds.length := by
      rw [← List.length_append, List.takeWhile_append_dropWhile]
    have hexp : ds.length - 1 + 1 - (ds.dropWhile (· == 0)).length =
        (ds.takeWhile (· == 0)).length := by
      unfold scientificWidth at hw
      omega
    have hzero : ∀ d ∈ ds.takeWhile (· == 0), d = 0 := fun d hd => by
      simpa using List.mem_takeWhile_imp hd
    rw [hexp, ← ofDigits_zeros _ hzero, List.takeWhile_append_dropWhile, hn]

example : asCharacter 120000 = .fixed [0, 0, 0, 0, 2, 1] := by decide
example : asCharacter 100000 = .scientific [1] 5 := by decide

end Mongolite
