import Mathlib.Algebra.Order.Field.Basic
import Mathlib.Algebra.Order.Field.Power
import Mathlib.Algebra.Order.Field.Rat
import Mathlib.Data.List.DropRight
import Mathlib.Tactic.FieldSimp
import Mathlib.Tactic.Linarith
import Mathlib.Tactic.Positivity
import Mongolite.Library.JsonNumbers
import Mongolite.Library.Quotients

/-! # Doubles as text

The format `%.20g` rounds a double to twenty decimal digits. That is enough to
tell it from all other doubles: no other one is as near to the number that the
text stands for.
-/

namespace Mongolite

/-- The parts of a double in its binary format. -/
structure DoubleFields where
  negative : Bool
  biased : ℕ
  fraction : ℕ
  fraction_lt : fraction < 2 ^ 52

def doubleFields (bits : ℕ) : DoubleFields where
  negative := bits / 2 ^ 63 % 2 = 1
  biased := bits / 2 ^ 52 % 2 ^ 11
  fraction := bits % 2 ^ 52
  fraction_lt := Nat.mod_lt _ (by decide)

namespace DoubleFields

variable (x : DoubleFields)

def isFinite : Bool := x.biased < 2047

def isNaN : Bool := 2047 ≤ x.biased ∧ x.fraction ≠ 0

def mantissa : ℕ := if x.biased = 0 then x.fraction else 2 ^ 52 + x.fraction

def scale : ℤ := (max 1 x.biased : ℕ) - 1075

/-- The magnitude is this over the denominator. -/
def numerator : ℕ := x.mantissa * 2 ^ x.scale.toNat

def denominator : ℕ := 2 ^ (-x.scale).toNat

def magnitude : ℚ := x.mantissa * 2 ^ x.scale

def value : ℚ := (if x.negative then -1 else 1) * x.magnitude

end DoubleFields

/-! ## The format -/

/-- The power of ten of the first digit of a positive fraction. -/
def exponentTen (n d : ℕ) : ℤ :=
  if d ≤ n then (Nat.log 10 (n / d) : ℤ) else -(Nat.clog 10 ((d + n - 1) / n) : ℤ)

def roundScaled (n d : ℕ) (k : ℤ) : ℕ :=
  roundHalfEven (n * 10 ^ k.toNat) (d * 10 ^ (-k).toNat)

/-- As many digits as the precision says, and the power of ten of the first. -/
def scientific (precision n d : ℕ) : ℕ × ℤ :=
  if n = 0 then (0, 0)
  else
    let x := exponentTen n d
    let digits := roundScaled n d (precision - 1 - x)
    if digits = 10 ^ precision then (10 ^ (precision - 1), x + 1) else (digits, x)

/-- The parts of a text: digits before the point, digits after it, and an exponent. -/
structure GeneralLayout where
  whole : List Char
  rest : List Char
  exponent : Option ℤ

/-- An exponent is written where the first digit would be far from the point. -/
def generalLayout (precision : ℕ) (digits : List Char) (x : ℤ) : GeneralLayout :=
  if -4 ≤ x ∧ x < precision then
    if 0 ≤ x then ⟨digits.take (x.toNat + 1), digits.drop (x.toNat + 1), none⟩
    else ⟨['0'], List.replicate (x.natAbs - 1) '0' ++ digits, none⟩
  else ⟨digits.take 1, digits.drop 1, some x⟩

/-- Zeros at the end are left out, and the point where nothing follows it. -/
def trimmedFraction (rest : List Char) : Option (List Char) :=
  if rest.rdropWhile (· == '0') = [] then none else some (rest.rdropWhile (· == '0'))

def exponentText (x : ℤ) : List Char :=
  'e' :: (if x < 0 then '-' else '+') :: zeroPad 2 (Nat.toDigits 10 x.natAbs)

def GeneralLayout.text (layout : GeneralLayout) : List Char :=
  layout.whole ++ ((trimmedFraction layout.rest).elim [] ('.' :: ·) ++
    layout.exponent.elim [] exponentText)

/-- The layout of a magnitude in the format `%.*g`. -/
def formatGeneral (precision n d : ℕ) : GeneralLayout :=
  let s := scientific precision n d
  generalLayout precision (zeroPad precision (Nat.toDigits 10 s.1)) s.2

/-- A finite double in the format `%.20g`, with a point and a zero after what is all digits. -/
def doubleText (x : DoubleFields) : List Char :=
  let text := (if x.negative then ['-'] else []) ++
    (formatGeneral 20 x.numerator x.denominator).text
  if text.all (fun c => c.isDigit || c == '-') then text ++ ['.', '0'] else text

variable {n d p : ℕ}

/-! ## Rounding -/

theorem exponentTen_spec (hn : 0 < n) (hd : 0 < d) :
    (10 : ℚ) ^ exponentTen n d ≤ n / d ∧ (n : ℚ) / d < 10 ^ (exponentTen n d + 1) := by
  have hn' : (0 : ℚ) < n := by exact_mod_cast hn
  have hd' : (0 : ℚ) < d := by exact_mod_cast hd
  rw [le_div_iff₀ hd', div_lt_iff₀ hd']
  unfold exponentTen
  split_ifs with hle
  · have hquot : n / d ≠ 0 := (Nat.div_pos hle hd).ne'
    have hlow := Nat.pow_log_le_self 10 hquot
    have hhigh := Nat.lt_pow_succ_log_self (b := 10) (by decide) (n / d)
    rw [zpow_natCast, zpow_add_one₀ (by decide), zpow_natCast, ← pow_succ]
    constructor
    · exact_mod_cast (Nat.mul_le_mul_right d hlow).trans (Nat.div_mul_le_self n d)
    · exact_mod_cast (Nat.div_lt_iff_lt_mul hd).mp hhigh
  · have hlt := Nat.lt_of_not_le hle
    -- the quotient of the denominator by the numerator, rounded up
    have hceil : d ≤ (d + n - 1) / n * n := by
      have hmod := Nat.div_add_mod (d + n - 1) n
      have hrest := Nat.mod_lt (d + n - 1) hn
      rw [mul_comm] at hmod
      omega
    have hfloor : ((d + n - 1) / n - 1) * n < d := by
      have hmul := Nat.div_mul_le_self (d + n - 1) n
      rw [Nat.sub_one_mul]
      omega
    generalize (d + n - 1) / n = c at hceil hfloor
    have hc : 1 < c := by
      by_contra hc
      have hmul := Nat.mul_le_mul_right n (Nat.le_of_not_lt hc)
      omega
    have hhigh := Nat.le_pow_clog (b := 10) (by decide) c
    have hlow := Nat.pow_pred_clog_lt_self (b := 10) (by decide) hc
    obtain ⟨k, hk⟩ := Nat.exists_eq_succ_of_ne_zero (Nat.clog_pos (b := 10) (by decide) hc).ne'
    rw [hk] at hhigh hlow ⊢
    have hpow : -((k.succ : ℕ) : ℤ) + 1 = -(k : ℤ) := by push_cast; ring
    rw [hpow, zpow_neg, zpow_neg, zpow_natCast, zpow_natCast]
    constructor
    · rw [inv_mul_le_iff₀ (by positivity)]
      exact_mod_cast hceil.trans (Nat.mul_le_mul_right n hhigh)
    · rw [lt_inv_mul_iff₀ (by positivity)]
      have hpred : 10 ^ k ≤ c - 1 := Nat.le_sub_one_of_lt hlow
      exact_mod_cast (Nat.mul_le_mul_right n hpred).trans_lt hfloor

theorem zpow_toNat (b : ℚ) (hb : b ≠ 0) (k : ℤ) : b ^ k.toNat / b ^ (-k).toNat = b ^ k := by
  rw [div_eq_iff (pow_ne_zero _ hb), ← zpow_natCast, ← zpow_natCast, ← zpow_add₀ hb]
  congr 1
  omega

theorem abs_roundScaled_sub_le (n : ℕ) (hd : 0 < d) (k : ℤ) :
    |(roundScaled n d k : ℚ) - n / d * 10 ^ k| ≤ 1 / 2 := by
  have hround := abs_roundHalfEven_sub_le (n * 10 ^ k.toNat) (d := d * 10 ^ (-k).toNat)
    (Nat.mul_pos hd (Nat.pow_pos (by decide)))
  push_cast at hround
  rwa [mul_div_mul_comm, zpow_toNat 10 (by decide)] at hround

/-- The digits have the right number, and are within half a unit of the last one. -/
theorem scientific_spec (hp : 0 < p) (hn : 0 < n) (hd : 0 < d) :
    10 ^ (p - 1) ≤ (scientific p n d).1 ∧ (scientific p n d).1 < 10 ^ p ∧
      |((scientific p n d).1 : ℚ) * 10 ^ ((scientific p n d).2 - (p - 1)) - n / d| ≤
        n / d * 10 ^ (1 - (p : ℤ)) / 2 := by
  obtain ⟨hlow, hhigh⟩ := exponentTen_spec hn hd
  have hround := abs_roundScaled_sub_le n hd (p - 1 - exponentTen n d)
  have hpos : (0 : ℚ) < n / d := by positivity
  rw [scientific, if_neg hn.ne']
  simp only
  generalize exponentTen n d = x at hlow hhigh hround
  generalize roundScaled n d (p - 1 - x) = r at hround
  generalize (n : ℚ) / d = v at hlow hhigh hround hpos
  have hunit : (0 : ℚ) < 10 ^ (x - (p - 1)) := by positivity
  have hscale : (10 : ℚ) ^ ((p : ℤ) - 1 - x) * 10 ^ (x - (p - 1)) = 1 := by
    rw [← zpow_add₀ (by decide)]
    simp
  have hfirst : (10 : ℚ) ^ (p - 1) = 10 ^ x * 10 ^ ((p : ℤ) - 1 - x) := by
    rw [← zpow_natCast, ← zpow_add₀ (by decide)]
    congr 1
    omega
  have hlast : (10 : ℚ) ^ p = 10 ^ (x + 1) * 10 ^ ((p : ℤ) - 1 - x) := by
    rw [← zpow_natCast, ← zpow_add₀ (by decide)]
    congr 1
    omega
  have hscale₀ : (0 : ℚ) < 10 ^ ((p : ℤ) - 1 - x) := by positivity
  have hge := mul_le_mul_of_nonneg_right hlow hscale₀.le
  have hlt := mul_lt_mul_of_pos_right hhigh hscale₀
  rw [← hfirst] at hge
  rw [← hlast] at hlt
  obtain ⟨hdown, hup⟩ := abs_le.mp hround
  have hr : 10 ^ (p - 1) ≤ r := by
    by_contra h
    have hle : (r : ℚ) + 1 ≤ 10 ^ (p - 1) := by exact_mod_cast Nat.lt_of_not_le h
    linarith
  have hr' : r ≤ 10 ^ p := by
    by_contra h
    have hle : (10 : ℚ) ^ p + 1 ≤ r := by exact_mod_cast Nat.lt_of_not_le h
    linarith
  have herror : |(r : ℚ) * 10 ^ (x - (p - 1)) - v| ≤ v * 10 ^ (1 - (p : ℤ)) / 2 := by
    have hsub : (r : ℚ) * 10 ^ (x - (p - 1)) - v =
        (r - v * 10 ^ ((p : ℤ) - 1 - x)) * 10 ^ (x - (p - 1)) := by
      rw [sub_mul, mul_assoc v, hscale, mul_one]
    have hsplit : (10 : ℚ) ^ (x - (p - 1)) = 10 ^ x * 10 ^ (1 - (p : ℤ)) := by
      rw [← zpow_add₀ (by decide)]
      congr 1
      omega
    have hsmall : (0 : ℚ) < 10 ^ (1 - (p : ℤ)) := by positivity
    rw [hsub, abs_mul, abs_of_pos hunit]
    calc |(r : ℚ) - v * 10 ^ ((p : ℤ) - 1 - x)| * 10 ^ (x - (p - 1))
        ≤ 1 / 2 * 10 ^ (x - (p - 1)) := mul_le_mul_of_nonneg_right hround hunit.le
      _ = 10 ^ x * 10 ^ (1 - (p : ℤ)) / 2 := by rw [hsplit]; ring
      _ ≤ v * 10 ^ (1 - (p : ℤ)) / 2 := by
        have hmul := mul_le_mul_of_nonneg_right hlow hsmall.le
        linarith
  split_ifs with hcarry
  · refine ⟨le_rfl, Nat.pow_lt_pow_right (by decide) (by omega), ?_⟩
    have hsame : ((10 ^ (p - 1) : ℕ) : ℚ) * 10 ^ (x + 1 - (p - 1)) = r * 10 ^ (x - (p - 1)) := by
      rw [hcarry]
      push_cast
      rw [← zpow_natCast, ← zpow_natCast, ← zpow_add₀ (by decide), ← zpow_add₀ (by decide)]
      congr 1
      omega
    rwa [hsame]
  · exact ⟨hr, lt_of_le_of_ne hr' hcarry, herror⟩

/-! ## The number of a text -/

/-- The rational number that a coefficient and an exponent stand for. -/
def DecimalNumber.value (number : DecimalNumber) : ℚ :=
  (if number.negative then -1 else 1) * (number.coefficient * 10 ^ number.exponent)

variable {digits rest tail : List Char} {x e : ℤ}

/-- The layout keeps the digits and says where the point is among them. -/
structure GeneralLayout.Holds (layout : GeneralLayout) (digits : List Char) (scale : ℤ) : Prop where
  whole_ne_nil : layout.whole ≠ []
  isDigit : ∀ c ∈ layout.whole ++ layout.rest, c.isDigit
  digits_eq : Nat.ofDigitChars 10 (layout.whole ++ layout.rest) 0 = Nat.ofDigitChars 10 digits 0
  scale_eq : layout.exponent.getD 0 - layout.rest.length = scale

theorem generalLayout_holds (hp : 0 < p) (hlen : digits.length = p)
    (hdigits : ∀ c ∈ digits, c.isDigit) (x : ℤ) :
    (generalLayout p digits x).Holds digits (x - (p - 1)) := by
  have hne : digits ≠ [] := List.length_pos_iff.mp (hlen ▸ hp)
  unfold generalLayout
  split_ifs with hfixed hx
  · constructor
    · simp [hne]
    · rwa [List.take_append_drop]
    · rw [List.take_append_drop]
    · simp only [Option.getD_none, List.length_drop]
      omega
  · constructor
    · exact List.cons_ne_nil _ _
    · intro c hc
      simp only [List.cons_append, List.nil_append, List.mem_cons, List.mem_append,
        List.mem_replicate] at hc
      rcases hc with rfl | ⟨-, rfl⟩ | hc
      · rfl
      · rfl
      · exact hdigits c hc
    · have hzeros : ['0'] ++ (List.replicate (x.natAbs - 1) '0' ++ digits) =
          List.replicate (x.natAbs - 1 + 1) '0' ++ digits := rfl
      rw [hzeros, Nat.ofDigitChars_append, Nat.ofDigitChars_replicate_zero, Nat.mul_zero]
    · simp only [Option.getD_none, List.length_append, List.length_replicate]
      omega
  · constructor
    · simp [hne]
    · rwa [List.take_append_drop]
    · rw [List.take_append_drop]
    · simp only [Option.getD_some, List.length_drop]
      omega

theorem exists_zeros (rest : List Char) :
    ∃ k, rest = (trimmedFraction rest).getD [] ++ List.replicate k '0' := by
  have hsplit := List.rdropWhile_append_rtakeWhile (p := (· == '0')) (l := rest)
  have hzeros : rest.rtakeWhile (· == '0') =
      List.replicate (rest.rtakeWhile (· == '0')).length '0' := by
    rw [List.eq_replicate_iff]
    exact ⟨rfl, fun c hc => eq_of_beq (List.mem_rtakeWhile_imp (p := (· == '0')) hc)⟩
  have htrimmed : (trimmedFraction rest).getD [] = rest.rdropWhile (· == '0') := by
    unfold trimmedFraction
    split_ifs with hnil
    · exact hnil.symm
    · rfl
  exact ⟨_, by rw [htrimmed, ← hzeros, hsplit]⟩

theorem exponentValue_exponentText (x : ℤ) : exponentValue (exponentText x) = some x := by
  have hsign : takeSign ((if x < 0 then '-' else '+') :: zeroPad 2 (Nat.toDigits 10 x.natAbs)) =
      (decide (x < 0), zeroPad 2 (Nat.toDigits 10 x.natAbs)) := by
    split_ifs with hx
    · rw [decide_eq_true hx]
      rfl
    · rw [decide_eq_false hx]
      rfl
  rw [exponentText, exponentValue, signedValue, hsign, digitsValue_zeroPad, Option.map_some,
    sign_natAbs]

def doubleFraction (layout : GeneralLayout) : Option (List Char) :=
  if layout.exponent = none then some ((trimmedFraction layout.rest).getD ['0'])
  else trimmedFraction layout.rest

theorem GeneralLayout.Holds.all_text {layout : GeneralLayout} {scale : ℤ}
    (h : layout.Holds digits scale) (negative : Bool) :
    (((if negative then ['-'] else []) ++ layout.text).all
        (fun c => c.isDigit || c == '-') = true) ↔
      layout.exponent = none ∧ trimmedFraction layout.rest = none := by
  have hwhole : layout.whole.all (fun c => c.isDigit || c == '-') = true := by
    refine List.all_eq_true.mpr fun c hc => ?_
    rw [h.isDigit c (List.mem_append_left _ hc)]
    rfl
  have hsign : (if negative then ['-'] else []).all (fun c => c.isDigit || c == '-') = true := by
    cases negative <;> rfl
  rw [text, List.all_append, List.all_append, List.all_append, hwhole, hsign, Bool.true_and,
    Bool.true_and, Bool.and_eq_true, and_comm]
  refine and_congr ?_ ?_
  · cases layout.exponent with
    | none => exact iff_of_true rfl rfl
    | some x => exact iff_of_false (by simp [exponentText]) (Option.some_ne_none x)
  · cases trimmedFraction layout.rest with
    | none => exact iff_of_true rfl rfl
    | some cs => exact iff_of_false (by simp) (Option.some_ne_none cs)

theorem doubleText_eq (f : DoubleFields) {scale : ℤ}
    (h : (formatGeneral 20 f.numerator f.denominator).Holds digits scale) :
    doubleText f = (if f.negative then ['-'] else []) ++
      ((formatGeneral 20 f.numerator f.denominator).whole ++
        ((doubleFraction (formatGeneral 20 f.numerator f.denominator)).elim [] ('.' :: ·) ++
          (formatGeneral 20 f.numerator f.denominator).exponent.elim [] exponentText)) := by
  have hall := h.all_text f.negative
  unfold doubleText doubleFraction
  simp only [hall]
  generalize formatGeneral 20 f.numerator f.denominator = layout
  rw [GeneralLayout.text]
  cases layout.exponent with
  | none =>
    cases trimmedFraction layout.rest with
    | none => simp
    | some cs => simp
  | some x => simp

theorem value_append_zeros (whole fraction : List Char) (k : ℕ) (e : ℤ) :
    (Nat.ofDigitChars 10 (whole ++ (fraction ++ List.replicate k '0')) 0 : ℚ) *
        10 ^ (e - (fraction ++ List.replicate k '0').length) =
      Nat.ofDigitChars 10 (whole ++ fraction) 0 * 10 ^ (e - fraction.length) := by
  have hsplit : e - (fraction.length : ℤ) = e - (fraction.length + k : ℕ) + k := by omega
  rw [← List.append_assoc, Nat.ofDigitChars_append, Nat.ofDigitChars_replicate_zero,
    List.length_append, List.length_replicate, hsplit, zpow_add₀ (by decide), zpow_natCast]
  push_cast
  ring

theorem exists_zeros_doubleFraction (layout : GeneralLayout) :
    ∃ k, (doubleFraction layout).getD [] =
      (trimmedFraction layout.rest).getD [] ++ List.replicate k '0' := by
  unfold doubleFraction
  split_ifs
  · cases trimmedFraction layout.rest with
    | none => exact ⟨1, rfl⟩
    | some cs => exact ⟨0, (List.append_nil cs).symm⟩
  · exact ⟨0, (List.append_nil _).symm⟩

theorem trimmedFraction_ne_nil {cs : List Char} (h : trimmedFraction rest = some cs) : cs ≠ [] := by
  unfold trimmedFraction at h
  split_ifs at h with hnil
  cases h
  exact hnil

theorem doubleFraction_spec {layout : GeneralLayout} {scale : ℤ} (h : layout.Holds digits scale) :
    ∀ cs ∈ doubleFraction layout, cs ≠ [] ∧ ∀ c ∈ cs, c.isDigit = true := by
  obtain ⟨k, hk⟩ := exists_zeros layout.rest
  obtain ⟨j, hj⟩ := exists_zeros_doubleFraction layout
  have hdigits := h.isDigit
  rw [List.forall_mem_append, hk, List.forall_mem_append] at hdigits
  rintro cs hcs
  constructor
  · unfold doubleFraction at hcs
    split_ifs at hcs
    · obtain rfl := Option.some.inj hcs
      cases htrimmed : trimmedFraction layout.rest with
      | none => exact List.cons_ne_nil _ _
      | some cs => exact trimmedFraction_ne_nil htrimmed
    · exact trimmedFraction_ne_nil hcs
  · intro c hc
    rw [hcs, Option.getD_some] at hj
    rw [hj, List.mem_append] at hc
    rcases hc with hc | hc
    · exact hdigits.2.1 c hc
    · rw [List.eq_of_mem_replicate hc]
      rfl

theorem exists_number_doubleText (f : DoubleFields) {scale : ℤ}
    (h : (formatGeneral 20 f.numerator f.denominator).Holds digits scale) :
    ∃ number, readDecimal (doubleText f) = some number ∧ number.negative = f.negative ∧
      (number.coefficient : ℚ) * 10 ^ number.exponent =
        Nat.ofDigitChars 10 digits 0 * 10 ^ scale := by
  rw [doubleText_eq f h]
  generalize formatGeneral 20 f.numerator f.denominator = layout at h
  obtain ⟨k, hk⟩ := exists_zeros layout.rest
  obtain ⟨j, hj⟩ := exists_zeros_doubleFraction layout
  have hfraction : ∀ cs ∈ doubleFraction layout, ∀ c ∈ cs, c.isDigit := fun cs hcs =>
    (doubleFraction_spec h cs hcs).2
  have htail : exponentValue (layout.exponent.elim [] exponentText) =
      some (layout.exponent.getD 0) := by
    cases layout.exponent with
    | none => rfl
    | some x => exact exponentValue_exponentText x
  refine ⟨_, readDecimal_of_parts h.whole_ne_nil
    (List.forall_mem_append.mp h.isDigit).1 hfraction htail, rfl, ?_⟩
  simp only
  rw [← h.digits_eq, ← h.scale_eq, hk, hj, value_append_zeros, value_append_zeros]

/-! ## The digits of a double -/

theorem ofDigitChars_zeroPad (width n : ℕ) :
    Nat.ofDigitChars 10 (zeroPad width (Nat.toDigits 10 n)) 0 = n := by
  rw [zeroPad, Nat.ofDigitChars_append, Nat.ofDigitChars_replicate_zero, Nat.mul_zero,
    Nat.ofDigitChars_ten_toDigits]

theorem scientific_lt (hp : 0 < p) (n : ℕ) (hd : 0 < d) : (scientific p n d).1 < 10 ^ p := by
  rcases Nat.eq_zero_or_pos n with rfl | hn
  · exact Nat.pow_pos (by decide)
  · exact (scientific_spec hp hn hd).2.1

theorem formatGeneral_holds (hp : 0 < p) (n : ℕ) (hd : 0 < d) :
    (formatGeneral p n d).Holds (zeroPad p (Nat.toDigits 10 (scientific p n d).1))
      ((scientific p n d).2 - (p - 1)) :=
  generalLayout_holds hp (length_zeroPad hp (scientific_lt hp n hd))
    (fun _ hc => isDigit_of_mem_zeroPad hc) _

theorem isInteger_formatGeneral (hp : 0 < p) (n : ℕ) (hd : 0 < d) :
    Json.isInteger (formatGeneral p n d).whole = true := by
  rcases Nat.eq_zero_or_pos n with rfl | hn
  · have hzero : (formatGeneral p 0 d).whole = ['0'] := by
      obtain ⟨p, rfl⟩ := Nat.exists_eq_succ_of_ne_zero hp.ne'
      have hfixed : (-4 : ℤ) ≤ 0 ∧ (0 : ℤ) < (p + 1 : ℕ) := by omega
      have hpad : zeroPad (p + 1) ['0'] = '0' :: List.replicate p '0' := by
        have hlast : zeroPad (p + 1) ['0'] = List.replicate p '0' ++ ['0'] := rfl
        rw [hlast, ← List.replicate_succ', List.replicate_succ]
      simp [formatGeneral, scientific, generalLayout, hfixed, hpad]
    rw [hzero]
    rfl
  · obtain ⟨hlow, hhigh, -⟩ := scientific_spec hp hn hd
    have hholds := formatGeneral_holds hp n hd
    have hpos : 0 < (scientific p n d).1 := Nat.lt_of_lt_of_le (Nat.pow_pos (by decide)) hlow
    have hlength : (Nat.toDigits 10 (scientific p n d).1).length = p := by
      have hle := (Nat.length_toDigits_le_iff (by decide) hp).mpr hhigh
      by_contra hne
      have hp' : 0 < p - 1 := by
        have hnil := Nat.toDigits_ne_nil (b := 10) (n := (scientific p n d).1)
        have hlen := List.length_pos_iff.mpr hnil
        omega
      have hless := (Nat.length_toDigits_le_iff (b := 10) (n := (scientific p n d).1) (by decide)
        hp').mp (by omega)
      omega
    have hpad : zeroPad p (Nat.toDigits 10 (scientific p n d).1) =
        Nat.toDigits 10 (scientific p n d).1 := by
      rw [zeroPad, hlength, Nat.sub_self]
      rfl
    have hhead := Json.head?_toDigits hpos
    unfold formatGeneral generalLayout
    simp only [hpad]
    split_ifs with hfixed hx
    · refine Json.isInteger_of_head? (by simp) ?_
      rwa [List.head?_take, if_neg (Nat.succ_ne_zero _)]
    · rfl
    · refine Json.isInteger_of_head? (by simp) ?_
      rwa [List.head?_take, if_neg (by decide)]

theorem isExponent_exponentText (x : ℤ) : Json.isExponent (exponentText x) = true := by
  have hdigits : (zeroPad 2 (Nat.toDigits 10 x.natAbs)).all Char.isDigit = true :=
    List.all_eq_true.mpr fun c hc => isDigit_of_mem_zeroPad hc
  have hne : (zeroPad 2 (Nat.toDigits 10 x.natAbs)).isEmpty = false := by
    rw [List.isEmpty_eq_false_iff]
    exact zeroPad_ne_nil _ _
  unfold exponentText
  split_ifs
  · simp [Json.isExponent, hdigits, hne]
  · simp [Json.isExponent, hdigits, hne]

theorem DoubleFields.denominator_pos (f : DoubleFields) : 0 < f.denominator :=
  Nat.pow_pos (by decide)

theorem isNumber_doubleText (f : DoubleFields) : Json.isNumber (doubleText f) = true := by
  have hholds := formatGeneral_holds (p := 20) (by decide) f.numerator f.denominator_pos
  have htail : Json.isExponent ((formatGeneral 20 f.numerator f.denominator).exponent.elim []
      exponentText) = true := by
    cases (formatGeneral 20 f.numerator f.denominator).exponent with
    | none => rfl
    | some x => exact isExponent_exponentText x
  rw [doubleText_eq f hholds]
  exact Json.isNumber_of_parts _ (List.forall_mem_append.mp hholds.isDigit).1
    (isInteger_formatGeneral (by decide) _ f.denominator_pos) (doubleFraction_spec hholds) htail

/-! ## The nearest double -/

namespace DoubleFields

theorem mantissa_lt (f : DoubleFields) : f.mantissa < 2 ^ 53 := by
  have hlt := f.fraction_lt
  unfold mantissa
  split_ifs <;> omega

/-- A double that has room for a smaller unit has all its bits. -/
theorem le_mantissa {f : DoubleFields} (h : -1074 < f.scale) : 2 ^ 52 ≤ f.mantissa := by
  unfold scale at h
  unfold mantissa
  rw [if_neg (by omega)]
  exact Nat.le_add_right _ _

theorem le_scale (f : DoubleFields) : -1074 ≤ f.scale := by
  unfold scale
  omega

theorem numerator_div (f : DoubleFields) : (f.numerator : ℚ) / f.denominator = f.magnitude := by
  rw [numerator, denominator, magnitude]
  push_cast
  rw [mul_div_assoc, zpow_toNat 2 (by decide)]

theorem half_unit_le {f g : DoubleFields} (h : f.magnitude ≠ g.magnitude) :
    (2 : ℚ) ^ (f.scale - 1) ≤ |f.magnitude - g.magnitude| := by
  have hunit : (0 : ℚ) < 2 ^ (f.scale - 1) := by positivity
  have hsplit : (2 : ℚ) ^ f.scale = 2 * 2 ^ (f.scale - 1) := by
    rw [← zpow_one_add₀ (by decide)]
    congr 1
    omega
  rcases le_or_gt f.scale g.scale with hle | hlt
  · -- both are multiples of the unit of the first
    obtain ⟨k, hk⟩ := Int.eq_ofNat_of_zero_le (Int.sub_nonneg_of_le hle)
    have hg : (2 : ℚ) ^ g.scale = 2 ^ k * 2 ^ f.scale := by
      rw [← zpow_natCast, ← zpow_add₀ (by decide)]
      congr 1
      omega
    have hsub : f.magnitude - g.magnitude =
        ((f.mantissa - g.mantissa * 2 ^ k : ℤ) : ℚ) * 2 ^ f.scale := by
      rw [magnitude, magnitude, hg]
      push_cast
      ring
    have hne : (f.mantissa - g.mantissa * 2 ^ k : ℤ) ≠ 0 := by
      intro hzero
      rw [hzero, Int.cast_zero, zero_mul] at hsub
      exact h (sub_eq_zero.mp hsub)
    have hone : (1 : ℚ) ≤ |((f.mantissa - g.mantissa * 2 ^ k : ℤ) : ℚ)| := by
      rw [← Int.cast_abs]
      exact_mod_cast Int.one_le_abs hne
    have hmul := mul_le_mul_of_nonneg_right hone hunit.le
    have hscale : (0 : ℚ) < 2 ^ f.scale := by positivity
    rw [hsub, abs_mul, abs_of_pos hscale, hsplit]
    linarith
  · -- the second is below all doubles with the unit of the first
    have hmantissa : (2 : ℚ) ^ 52 ≤ f.mantissa := by
      exact_mod_cast le_mantissa (lt_of_le_of_lt g.le_scale hlt)
    have hmantissa' : (g.mantissa : ℚ) ≤ 2 ^ 53 - 1 := by
      have hle : (g.mantissa : ℚ) + 1 ≤ 2 ^ 53 := by exact_mod_cast g.mantissa_lt
      linarith
    have hscale : (2 : ℚ) ^ g.scale ≤ 2 ^ (f.scale - 1) :=
      zpow_le_zpow_right₀ one_le_two (by omega)
    have hf : 2 ^ 53 * 2 ^ (f.scale - 1) ≤ f.magnitude := by
      have hmul := mul_le_mul_of_nonneg_right hmantissa hunit.le
      rw [magnitude, hsplit]
      linarith
    have hg : g.magnitude ≤ (2 ^ 53 - 1) * 2 ^ (f.scale - 1) :=
      mul_le_mul hmantissa' hscale (by positivity) (by norm_num)
    refine le_trans ?_ (le_abs_self _)
    linarith

/-- A number that is within one part in `10 ^ 19` of a double has no nearer double. -/
theorem nearest {f g : DoubleFields} {v : ℚ} (hv : |v - f.magnitude| ≤ f.magnitude * 10 ^ (-19 : ℤ))
    (h : f.magnitude ≠ g.magnitude) : |v - f.magnitude| < |v - g.magnitude| := by
  have hgap := half_unit_le h
  have hmantissa : (f.mantissa : ℚ) < 2 ^ 53 := by exact_mod_cast f.mantissa_lt
  have hunit : (0 : ℚ) < 2 ^ (f.scale - 1) := by positivity
  have hsplit : (2 : ℚ) ^ f.scale = 2 * 2 ^ (f.scale - 1) := by
    rw [← zpow_one_add₀ (by decide)]
    congr 1
    omega
  have hsmall : f.magnitude * 10 ^ (-19 : ℤ) < 2 ^ (f.scale - 1) / 2 := by
    have hconst : (2 : ℚ) ^ 53 * 2 * 10 ^ (-19 : ℤ) < 1 / 2 := by norm_num
    have hmul := mul_lt_mul_of_pos_right hmantissa hunit
    have hmul' := mul_lt_mul_of_pos_right hconst hunit
    rw [magnitude, hsplit]
    have hpos : (0 : ℚ) < 10 ^ (-19 : ℤ) := by positivity
    have hmul'' := mul_lt_mul_of_pos_right hmul hpos
    linarith
  have htriangle := abs_sub_abs_le_abs_sub (f.magnitude - g.magnitude) (f.magnitude - v)
  have hsub : f.magnitude - g.magnitude - (f.magnitude - v) = v - g.magnitude := by ring
  have hclose := hv.trans_lt hsmall
  rw [hsub, abs_sub_comm f.magnitude v] at htriangle
  linarith

theorem magnitude_nonneg (f : DoubleFields) : 0 ≤ f.magnitude := by
  unfold magnitude
  positivity

theorem scientific_near (f : DoubleFields) :
    |((scientific 20 f.numerator f.denominator).1 : ℚ) *
        10 ^ ((scientific 20 f.numerator f.denominator).2 - ((20 : ℕ) - 1)) - f.magnitude| ≤
      f.magnitude * 10 ^ (-19 : ℤ) := by
  rcases Nat.eq_zero_or_pos f.numerator with hzero | hpos
  · have hmagnitude : f.magnitude = 0 := by
      rw [← f.numerator_div, hzero, Nat.cast_zero, zero_div]
    simp [hzero, hmagnitude, scientific]
  · obtain ⟨-, -, hnear⟩ := scientific_spec (p := 20) (by decide) hpos f.denominator_pos
    have hnonneg := f.magnitude_nonneg
    rw [f.numerator_div] at hnear
    refine hnear.trans ?_
    have hpow : (10 : ℚ) ^ (1 - ((20 : ℕ) : ℤ)) = 10 ^ (-19 : ℤ) := by norm_num
    rw [hpow]
    exact half_le_self (by positivity)

theorem nearest_signed {f g : DoubleFields} {v : ℚ} (hv₀ : 0 ≤ v)
    (hv : |v - f.magnitude| ≤ f.magnitude * 10 ^ (-19 : ℤ)) (h : g.value ≠ f.value) :
    |(if f.negative then -1 else 1) * v - f.value| <
      |(if f.negative then -1 else 1) * v - g.value| := by
  have hf := f.magnitude_nonneg
  have hg := g.magnitude_nonneg
  have hown : |(if f.negative then -1 else 1) * v - f.value| = |v - f.magnitude| := by
    unfold value
    rw [← mul_sub, abs_mul]
    split_ifs <;> simp
  rw [hown]
  by_cases hsign : g.negative = f.negative
  · have hother : |(if f.negative then -1 else 1) * v - g.value| = |v - g.magnitude| := by
      unfold value
      rw [hsign, ← mul_sub, abs_mul]
      split_ifs <;> simp
    rw [hother]
    refine nearest hv fun heq => h ?_
    rw [value, value, hsign, heq]
  · have hother : |(if f.negative then -1 else 1) * v - g.value| = v + g.magnitude := by
      have hopposite : (if f.negative then -1 else 1) * v - g.value =
          (if f.negative then -1 else 1) * (v + g.magnitude) := by
        unfold value
        cases hneg : f.negative <;> cases hneg' : g.negative
        · exact absurd (hneg'.trans hneg.symm) hsign
        · simp
        · simp
          ring
        · exact absurd (hneg'.trans hneg.symm) hsign
      rw [hopposite, abs_mul, abs_of_nonneg (add_nonneg hv₀ hg)]
      split_ifs <;> simp
    rw [hother]
    by_cases heq : f.magnitude = g.magnitude
    · have hpos : 0 < f.magnitude := by
        refine lt_of_le_of_ne hf fun hzero => h ?_
        rw [value, value, ← heq, ← hzero, mul_zero, mul_zero]
      have hsmall : f.magnitude * 10 ^ (-19 : ℤ) < f.magnitude :=
        mul_lt_of_lt_one_right hpos (by norm_num)
      obtain ⟨hdown, hup⟩ := abs_lt.mp (hv.trans_lt hsmall)
      rw [← heq, abs_lt]
      constructor <;> linarith
    · have hnear := nearest hv heq
      refine hnear.trans_le ?_
      rw [abs_le]
      constructor <;> linarith

/-- The text of a finite double stands for a number with the sign of the double, and no other
double is as near to that number. -/
theorem doubleText_nearest (f : DoubleFields) :
    ∃ number, readDecimal (doubleText f) = some number ∧ number.negative = f.negative ∧
      ∀ g : DoubleFields, g.value ≠ f.value →
        |number.value - f.value| < |number.value - g.value| := by
  have hholds := formatGeneral_holds (p := 20) (by decide) f.numerator f.denominator_pos
  obtain ⟨number, hread, hnegative, hnumber⟩ := exists_number_doubleText f hholds
  have hnear := f.scientific_near
  rw [ofDigitChars_zeroPad] at hnumber
  rw [← hnumber] at hnear
  refine ⟨number, hread, hnegative, fun g hg => ?_⟩
  rw [DecimalNumber.value, hnegative]
  exact nearest_signed (by positivity) hnear hg

end DoubleFields

/-! ## The length of the text -/

theorem natAbs_exponentTen_le {k : ℕ} (hn : 0 < n) (hd : 0 < d) (hn' : n < 10 ^ k)
    (hd' : d ≤ 10 ^ k) : (exponentTen n d).natAbs ≤ k := by
  unfold exponentTen
  split_ifs with hle
  · have hdiv : n / d < 10 ^ k := Nat.lt_of_le_of_lt (Nat.div_le_self n d) hn'
    rw [Int.natAbs_natCast]
    exact (Nat.log_lt_of_lt_pow (Nat.div_pos hle hd).ne' hdiv).le
  · have hdiv : (d + n - 1) / n ≤ d := by
      obtain ⟨m, rfl⟩ := Nat.exists_eq_succ_of_ne_zero hn.ne'
      obtain ⟨e, rfl⟩ := Nat.exists_eq_succ_of_ne_zero hd.ne'
      apply Nat.div_le_of_le_mul
      have hsplit : (m + 1) * (e + 1) = m * e + m + e + 1 := by ring
      have hpos := Nat.zero_le (m * e)
      simp only [Nat.succ_eq_add_one] at hsplit ⊢
      omega
    rw [Int.natAbs_neg, Int.natAbs_natCast]
    exact Nat.clog_le_of_le_pow (hdiv.trans hd')

theorem length_exponentText_le {k : ℕ} (hk : 2 ≤ k) (h : x.natAbs < 10 ^ k) :
    (exponentText x).length ≤ k + 2 := by
  have hdigits := (Nat.length_toDigits_le_iff (by decide) (by omega)).mpr h
  simp only [exponentText, List.length_cons, zeroPad, List.length_append, List.length_replicate]
  omega

theorem length_trimmedFraction_le (rest : List Char) :
    ((trimmedFraction rest).elim [] ('.' :: ·)).length ≤ rest.length + 1 := by
  unfold trimmedFraction
  split_ifs
  · exact Nat.zero_le _
  · have hle := (List.rdropWhile_prefix (· == '0') (l := rest)).length_le
    simp only [Option.elim_some, List.length_cons]
    omega

theorem length_generalLayout_le {digits : List Char} {k : ℕ} (hk : 2 ≤ k)
    (hx : x.natAbs < 10 ^ k) :
    (generalLayout p digits x).text.length ≤ digits.length + k + 8 := by
  have hexponent := length_exponentText_le hk hx
  have htrimmed := length_trimmedFraction_le (generalLayout p digits x).rest
  simp only [GeneralLayout.text, List.length_append]
  unfold generalLayout at htrimmed ⊢
  split_ifs at htrimmed ⊢ with hfixed hnonneg
  · simp only [List.length_take, List.length_drop, Option.elim_none, List.length_nil]
      at htrimmed ⊢
    omega
  · simp only [List.length_cons, List.length_append, List.length_replicate, List.length_nil,
      Option.elim_none] at htrimmed ⊢
    omega
  · simp only [List.length_take, List.length_drop, Option.elim_some] at htrimmed ⊢
    omega

theorem two_pow_le {a k : ℕ} (h : a ≤ 3 * k) : 2 ^ a ≤ 10 ^ k := by
  refine (Nat.pow_le_pow_right (by decide) h).trans ?_
  rw [Nat.pow_mul]
  exact Nat.pow_le_pow_left (by decide) k

theorem mul_lt_pow {a b i j : ℕ} (ha : a < 10 ^ i) (hb : b ≤ 10 ^ j) : a * b < 10 ^ (i + j) := by
  rw [Nat.pow_add]
  exact Nat.mul_lt_mul_of_lt_of_le ha hb (Nat.pow_pos (by decide))

theorem length_doubleText_le {f : DoubleFields} (hfinite : f.isFinite = true) :
    (doubleText f).length ≤ 34 := by
  have hbiased : f.biased < 2047 := of_decide_eq_true hfinite
  have hscale := f.le_scale
  have hscale' : f.scale.toNat ≤ 3 * 341 := by
    unfold DoubleFields.scale
    omega
  have hmantissa : f.mantissa < 10 ^ 18 := Nat.lt_of_lt_of_le f.mantissa_lt (by decide)
  have hnumerator : f.numerator < 10 ^ (18 + 341) := mul_lt_pow hmantissa (two_pow_le hscale')
  have hdenominator : f.denominator ≤ 10 ^ (18 + 341) := two_pow_le (by omega)
  have hx : (scientific 20 f.numerator f.denominator).2.natAbs < 10 ^ 3 := by
    unfold scientific
    rcases Nat.eq_zero_or_pos f.numerator with hzero | hpos
    · simp [hzero]
    · have hx := natAbs_exponentTen_le hpos f.denominator_pos hnumerator hdenominator
      simp only [if_neg hpos.ne']
      split_ifs
      · simp only
        omega
      · simp only
        omega
  have hlength := length_zeroPad (show 0 < 20 by decide)
    (scientific_lt (p := 20) (by decide) f.numerator f.denominator_pos)
  have hlayout : (formatGeneral 20 f.numerator f.denominator).text.length ≤ _ :=
    length_generalLayout_le (by decide) hx
  have hsign : (if f.negative then ['-'] else []).length ≤ 1 := by
    split_ifs <;> decide
  rw [hlength] at hlayout
  unfold doubleText
  simp only
  split_ifs <;> simp only [List.length_append, List.length_cons, List.length_nil] <;> omega

end Mongolite
