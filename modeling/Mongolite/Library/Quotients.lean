import Mathlib.Algebra.Order.Field.Rat
import Mathlib.Data.Int.Log
import Mathlib.Data.Rat.Floor
import Mathlib.Tactic.FieldSimp
import Mathlib.Tactic.Linarith
import Mathlib.Tactic.Positivity
import Mongolite.Library.Doubles

/-! # Quotients as doubles

A quotient is rounded to 53 significant bits, so it is off by at most a part of
`2 ^ 53`.
-/

namespace Mongolite

variable {d : ℕ}

theorem div_eq_add_mod (n : ℕ) (hd : 0 < d) : (n : ℚ) / d = (n / d : ℕ) + (n % d : ℕ) / d := by
  have hpos : (d : ℚ) ≠ 0 := by exact_mod_cast hd.ne'
  have hdiv : (d : ℚ) * (n / d : ℕ) + (n % d : ℕ) = n := by exact_mod_cast Nat.div_add_mod n d
  rw [div_eq_iff hpos, add_mul, div_mul_cancel₀ _ hpos, mul_comm, hdiv]

theorem abs_roundHalfEven_sub_le (n : ℕ) (hd : 0 < d) :
    |(roundHalfEven n d : ℚ) - n / d| ≤ 1 / 2 := by
  have hpos : (0 : ℚ) < d := by exact_mod_cast hd
  have hrest : ((n % d : ℕ) : ℚ) / d ≤ 1 := by
    rw [div_le_one hpos]
    exact_mod_cast (Nat.mod_lt n hd).le
  have hrest₀ : (0 : ℚ) ≤ ((n % d : ℕ) : ℚ) / d := by positivity
  rw [div_eq_add_mod n hd, abs_le]
  unfold roundHalfEven
  split_ifs with hlow
  · have hhalf : ((n % d : ℕ) : ℚ) / d ≤ 1 / 2 := by
      rw [div_le_div_iff₀ hpos two_pos]
      exact_mod_cast (show n % d * 2 ≤ 1 * d by omega)
    constructor <;> linarith
  · have hhalf : 1 / 2 ≤ ((n % d : ℕ) : ℚ) / d := by
      rw [div_le_div_iff₀ two_pos hpos]
      exact_mod_cast (show 1 * d ≤ n % d * 2 by omega)
    push_cast
    constructor <;> linarith

/-- The double nearest to a rational that is neither too large nor too small for one. -/
def ratToDouble (q : ℚ) : ℚ :=
  let unit : ℚ := 2 ^ (Int.log 2 |q| - 52)
  let magnitude := roundHalfEven (|q| / unit).num.toNat (|q| / unit).den * unit
  if q < 0 then -magnitude else magnitude

theorem abs_roundHalfEven_rat_sub_le {q : ℚ} (hq : 0 ≤ q) :
    |(roundHalfEven q.num.toNat q.den : ℚ) - q| ≤ 1 / 2 := by
  have hnum : (q.num.toNat : ℚ) = q.num := by
    exact_mod_cast Int.toNat_of_nonneg (Rat.num_nonneg.mpr hq)
  have hle := abs_roundHalfEven_sub_le q.num.toNat q.den_pos
  rwa [hnum, Rat.num_div_den] at hle

/-- Rounding changes the last of 53 bits by at most a half. -/
theorem abs_ratToDouble_sub_le (q : ℚ) : |ratToDouble q - q| ≤ |q| / 2 ^ 53 := by
  rcases eq_or_ne q 0 with rfl | hne
  · simp [ratToDouble, roundHalfEven]
  have hpos : 0 < |q| := abs_pos.mpr hne
  have hlog : (2 : ℚ) ^ Int.log 2 |q| ≤ |q| := by
    exact_mod_cast Int.zpow_log_le_self one_lt_two hpos
  set unit : ℚ := 2 ^ (Int.log 2 |q| - 52) with hunit
  have hunit₀ : 0 < unit := zpow_pos two_pos _
  have hhalf : unit / 2 ≤ |q| / 2 ^ 53 := by
    have hscale : unit * 2 ^ 52 = 2 ^ Int.log 2 |q| := by
      rw [hunit, zpow_sub₀ two_ne_zero]
      field_simp
    rw [le_div_iff₀ (by positivity)]
    linarith
  have hround := abs_roundHalfEven_rat_sub_le (div_nonneg hpos.le hunit₀.le)
  set m : ℚ := (roundHalfEven (|q| / unit).num.toNat (|q| / unit).den : ℚ) with hm
  have hmagnitude : |m * unit - (|q|)| ≤ |q| / 2 ^ 53 := by
    have hfactor : m * unit - |q| = (m - |q| / unit) * unit := by field_simp
    rw [hfactor, abs_mul, abs_of_pos hunit₀]
    exact (mul_le_mul_of_nonneg_right hround hunit₀.le).trans (by linarith)
  have hvalue : ratToDouble q = if q < 0 then -(m * unit) else m * unit := rfl
  rw [hvalue]
  split_ifs with hneg
  · rw [abs_of_neg hneg] at hmagnitude ⊢
    rw [← abs_neg]
    convert hmagnitude using 2
    ring
  · rw [abs_of_nonneg (not_lt.mp hneg)] at hmagnitude ⊢
    exact hmagnitude

end Mongolite
