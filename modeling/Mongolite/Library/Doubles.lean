import Mathlib.Algebra.Group.Nat.Defs
import Mathlib.Algebra.Ring.Int.Defs
import Mathlib.Data.Nat.Log

/-! # Integers as doubles

The cast of an integer to a double keeps 53 significant bits and rounds to the
nearest, to the even one of two. Integers up to `2 ^ 53` are kept exactly.
-/

namespace Mongolite

/-- The quotient rounded to the nearest natural number, to the even one of two. -/
def roundHalfEven (n d : ℕ) : ℕ :=
  if 2 * (n % d) < d ∨ (2 * (n % d) = d ∧ n / d % 2 = 0) then n / d else n / d + 1

/-- The double nearest to a natural number; it has 53 significant bits. -/
def natToDouble (n : ℕ) : ℕ :=
  let unit := 2 ^ (n.log2 - 52)
  roundHalfEven n unit * unit

/-- The cast `(double) x` of an integer. -/
def toDouble (x : ℤ) : ℤ := x.sign * natToDouble x.natAbs

theorem natToDouble_of_le {n : ℕ} (h : n ≤ 2 ^ 53) : natToDouble n = n := by
  rcases Nat.eq_or_lt_of_le h with rfl | hlt
  · decide
  · have hlog : n.log2 ≤ 52 := by
      rcases Nat.eq_zero_or_pos n with rfl | hpos
      · decide
      · exact Nat.lt_succ_iff.mp ((Nat.log2_lt hpos.ne').mpr hlt)
    have hunit : n.log2 - 52 = 0 := Nat.sub_eq_zero_of_le hlog
    simp [natToDouble, hunit, roundHalfEven, Nat.mod_one]

theorem toDouble_of_natAbs_le {x : ℤ} (h : x.natAbs ≤ 2 ^ 53) : toDouble x = x := by
  rw [toDouble, natToDouble_of_le h, Int.sign_mul_natAbs]

example : toDouble (2 ^ 53 + 1) = 2 ^ 53 := by decide

end Mongolite
