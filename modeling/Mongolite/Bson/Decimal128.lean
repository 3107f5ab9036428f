import Mongolite.Library.DecimalText

/-! # Decimal numbers of 128 bits

`bson_decimal128_to_string`: the fields of the number, its digits by long
division, and its text in one of three formats inside a buffer of fixed size.
The text of a finite number stands for the sign, the coefficient and the
exponent that the bits hold, and no text is longer than the buffer.
-/

namespace Mongolite

structure BsonDecimal128 where
  high : UInt64
  low : UInt64
  deriving DecidableEq, Repr

namespace BsonDecimal128

variable (dec : BsonDecimal128)

/-! ## Fields -/

def isNegative : Bool := 2 ^ 63 ≤ dec.high.toNat

def highWord : ℕ := dec.high.toNat >>> 32

def combination : ℕ := (dec.highWord >>> 26) &&& 0x1f

def biasedExponent : ℕ :=
  if dec.combination >>> 3 = 3 then (dec.highWord >>> 15) &&& 0x3fff
  else (dec.highWord >>> 17) &&& 0x3fff

def significandMsb : ℕ :=
  if dec.combination >>> 3 = 3 then 0x8 + ((dec.highWord >>> 14) &&& 0x1)
  else (dec.highWord >>> 14) &&& 0x7

def exponent : ℤ := dec.biasedExponent - 6176

def significandHigh : ℕ := (dec.highWord &&& 0x3fff) + ((dec.significandMsb &&& 0xf) <<< 14)

def significand128 : List ℕ :=
  [dec.significandHigh, dec.high.toNat % 2 ^ 32, dec.low.toNat >>> 32, dec.low.toNat % 2 ^ 32]

def isFinite : Bool := dec.combination ≠ 30 ∧ dec.combination ≠ 31

/-! ## Digits -/

/-- `_bson_uint128_divide1B`: the quotient and the remainder. -/
def divide1B (value : List ℕ) : List ℕ × ℕ :=
  if value.all (· == 0) then (value, 0) else longDivision (2 ^ 32) (10 ^ 9) 0 value

/-- The nine digits of a remainder; those of zero are left as they are. -/
def nineDigits (leastDigits : ℕ) : List ℕ :=
  if leastDigits = 0 then List.replicate 9 0 else lastWords 10 9 leastDigits

/-- Nine digits at a time, the lowest first, in front of the digits below. -/
def extractDigits : ℕ → List ℕ → List ℕ → List ℕ
  | 0, _, below => below
  | k + 1, value, below =>
    extractDigits k (divide1B value).1 (nineDigits (divide1B value).2 ++ below)

/-- The coefficient is zero or taken for zero. -/
def isZero : Bool := dec.significand128.all (· == 0) || 2 ^ 17 ≤ dec.significandHigh

def digits : List ℕ :=
  if dec.isZero then [0] else (extractDigits 4 dec.significand128 []).dropWhile (· == 0)

def scientificExponent : ℤ := dec.digits.length - 1 + dec.exponent

/-! ## Text -/

/-- Digits one by one while the buffer allows it; also the digits that remain. -/
def putDigits (allowed : ℕ → Bool) : ℕ → List ℕ → List Char → List Char × List ℕ
  | 0, ds, out => (out, ds)
  | _ + 1, [], out => (out, [])
  | n + 1, d :: ds, out =>
    if allowed out.length then putDigits allowed n ds (out ++ [Nat.digitChar d]) else (out, d :: ds)

def signText : List Char := if dec.isNegative then ['-'] else []

def scientificText : List Char :=
  let out := dec.signText ++ (dec.digits.take 1).map Nat.digitChar
  let n := dec.digits.length - 1
  let pointed := if n = 0 then out else out ++ ['.']
  let shown := (putDigits (· < 36) n dec.digits.tail pointed).1
  shown ++ 'E' :: (plusDecimal dec.scientificExponent).take 5

def wholeText : List Char := (putDigits (· < 36) dec.digits.length dec.digits dec.signText).1

/-- `ddd.ddd`, with a zero before the point if no digit stands there. -/
def pointText : List Char :=
  let radixPosition := dec.digits.length + dec.exponent
  let before := if 0 < radixPosition then
    putDigits (· ≠ 42) radixPosition.toNat dec.digits dec.signText
  else (dec.signText ++ ['0'], dec.digits)
  let zeros := (-radixPosition).toNat
  let out := (putDigits (· ≠ 42) zeros (List.replicate zeros 0) (before.1 ++ ['.'])).1
  let trailing := dec.digits.length - radixPosition.toNat
  out ++ (before.2.take (min trailing (42 - out.length))).map Nat.digitChar

/-- `bson_decimal128_to_string`; the text of a NaN has no sign. -/
def toText : List Char :=
  if dec.combination >>> 3 = 3 ∧ dec.combination = 30 then dec.signText ++ "Infinity".toList
  else if dec.combination >>> 3 = 3 ∧ dec.combination = 31 then "NaN".toList
  else if dec.scientificExponent < -6 ∨ 0 < dec.exponent then dec.scientificText
  else if 0 ≤ dec.exponent then dec.wholeText
  else dec.pointText

/-! ## What the bits hold -/

/-- The coefficient, of up to 114 bits. -/
def coefficient : ℕ :=
  if dec.combination / 8 = 3 then 2 ^ 113 + dec.high.toNat % 2 ^ 47 * 2 ^ 64 + dec.low.toNat
  else dec.high.toNat % 2 ^ 49 * 2 ^ 64 + dec.low.toNat

/-- The number that the bits stand for; coefficients of more than 34 digits stand for zero. -/
def number : DecimalNumber :=
  ⟨dec.isNegative, if dec.coefficient < 10 ^ 34 then dec.coefficient else 0, dec.exponent⟩

theorem highWord_eq : dec.highWord = dec.high.toNat / 2 ^ 32 := Nat.shiftRight_eq_div_pow _ _

theorem combination_eq : dec.combination = dec.highWord / 2 ^ 26 % 2 ^ 5 := by
  rw [combination, Nat.shiftRight_eq_div_pow]
  exact Nat.and_two_pow_sub_one_eq_mod _ 5

theorem biasedExponent_eq : dec.biasedExponent =
    if dec.combination / 8 = 3 then dec.highWord / 2 ^ 15 % 2 ^ 14
    else dec.highWord / 2 ^ 17 % 2 ^ 14 := by
  simp only [biasedExponent, Nat.shiftRight_eq_div_pow]
  split_ifs <;> exact Nat.and_two_pow_sub_one_eq_mod _ 14

theorem significandHigh_eq : dec.significandHigh =
    if dec.combination / 8 = 3 then 2 ^ 17 + dec.highWord % 2 ^ 15 else dec.highWord % 2 ^ 17 := by
  have hlow : dec.highWord &&& 0x3fff = dec.highWord % 2 ^ 14 :=
    Nat.and_two_pow_sub_one_eq_mod _ 14
  have hmask : dec.significandMsb &&& 0xf = dec.significandMsb % 2 ^ 4 :=
    Nat.and_two_pow_sub_one_eq_mod _ 4
  have hone : dec.highWord / 2 ^ 14 &&& 0x1 = dec.highWord / 2 ^ 14 % 2 ^ 1 :=
    Nat.and_two_pow_sub_one_eq_mod _ 1
  have hseven : dec.highWord / 2 ^ 14 &&& 0x7 = dec.highWord / 2 ^ 14 % 2 ^ 3 :=
    Nat.and_two_pow_sub_one_eq_mod _ 3
  rw [significandHigh, hlow, hmask, Nat.shiftLeft_eq]
  simp only [significandMsb, Nat.shiftRight_eq_div_pow]
  rw [hone, hseven]
  split_ifs <;> omega

theorem biasedExponent_lt (hfinite : dec.isFinite) : dec.biasedExponent < 12288 := by
  have hne : dec.combination ≠ 30 ∧ dec.combination ≠ 31 := of_decide_eq_true hfinite
  have hhigh := dec.high.toNat_lt
  have hcombination := dec.combination_eq
  have hword := dec.highWord_eq
  rw [biasedExponent_eq]
  split_ifs <;> omega

theorem ofWords_significand128 : ofWords (2 ^ 32) dec.significand128 = dec.coefficient := by
  have hhigh := dec.high.toNat_lt
  have hlow := dec.low.toNat_lt
  have hword := dec.highWord_eq
  have hmid : dec.low.toNat >>> 32 = dec.low.toNat / 2 ^ 32 := Nat.shiftRight_eq_div_pow _ _
  simp only [significand128, ofWords_cons, ofWords_nil, significandHigh_eq, coefficient, hmid,
    List.length_cons, List.length_nil]
  split_ifs <;> omega

theorem lt_of_mem_significand128 : ∀ w ∈ dec.significand128, w < 2 ^ 32 := by
  have hlow := dec.low.toNat_lt
  have hmid : dec.low.toNat >>> 32 = dec.low.toNat / 2 ^ 32 := Nat.shiftRight_eq_div_pow _ _
  have hhigh : dec.significandHigh < 2 ^ 32 := by
    rw [significandHigh_eq]
    split_ifs <;> omega
  simp only [significand128, List.forall_mem_cons, hmid]
  exact ⟨hhigh, by omega, by omega, by omega, fun _ h => absurd h List.not_mem_nil⟩

theorem isZero_iff : dec.isZero ↔ dec.coefficient = 0 ∨ 2 ^ 113 ≤ dec.coefficient := by
  have hwords := dec.ofWords_significand128
  have hlow := dec.low.toNat_lt
  have hmid : dec.low.toNat >>> 32 = dec.low.toNat / 2 ^ 32 := Nat.shiftRight_eq_div_pow _ _
  simp only [significand128, ofWords_cons, ofWords_nil, List.length_cons, List.length_nil] at hwords
  simp only [isZero, significand128, List.all_cons, List.all_nil, Bool.and_true, Bool.or_eq_true,
    Bool.and_eq_true, beq_iff_eq, decide_eq_true_eq]
  omega

/-! ## What the digits stand for -/

theorem divide1B_eq {value : List ℕ} (h : ∀ w ∈ value, w < 2 ^ 32) :
    ofWords (2 ^ 32) (divide1B value).1 = ofWords (2 ^ 32) value / 10 ^ 9 ∧
      (divide1B value).2 = ofWords (2 ^ 32) value % 10 ^ 9 := by
  unfold divide1B
  split_ifs with hzero
  · have hall : ∀ w ∈ value, w = 0 := by simpa using hzero
    rw [List.eq_replicate_of_mem hall, ofWords_replicate_zero]
    exact ⟨rfl, rfl⟩
  · exact longDivision_eq (by decide) h

theorem lt_of_mem_divide1B {value : List ℕ} (h : ∀ w ∈ value, w < 2 ^ 32) :
    ∀ w ∈ (divide1B value).1, w < 2 ^ 32 := by
  intro w hw
  unfold divide1B at hw
  split_ifs at hw
  · exact h w hw
  · exact lt_of_mem_longDivision (by decide) hw

theorem ofWords_nineDigits {r : ℕ} (h : r < 10 ^ 9) : ofWords 10 (nineDigits r) = r := by
  unfold nineDigits
  split_ifs with hzero
  · rw [ofWords_replicate_zero, hzero]
  · exact ofWords_lastWords h

theorem length_nineDigits (r : ℕ) : (nineDigits r).length = 9 := by
  unfold nineDigits
  split_ifs <;> simp

theorem lt_of_mem_nineDigits {r d : ℕ} (h : d ∈ nineDigits r) : d < 10 := by
  unfold nineDigits at h
  split_ifs at h
  · rw [List.eq_of_mem_replicate h]
    decide
  · exact lt_of_mem_lastWords (by decide) h

theorem ofWords_extractDigits (k : ℕ) {value : List ℕ} (h : ∀ w ∈ value, w < 2 ^ 32)
    (below : List ℕ) :
    ofWords 10 (extractDigits k value below) =
      10 ^ below.length * (ofWords (2 ^ 32) value % 10 ^ (9 * k)) + ofWords 10 below := by
  induction k generalizing value below with
  | zero =>
    rw [extractDigits, Nat.mul_zero, Nat.pow_zero, Nat.mod_one, Nat.mul_zero, Nat.zero_add]
  | succ k ih =>
    obtain ⟨hquotient, hremainder⟩ := divide1B_eq h
    have hnine := ofWords_nineDigits (r := (divide1B value).2)
      (hremainder ▸ Nat.mod_lt _ (by decide))
    rw [extractDigits, ih (lt_of_mem_divide1B h), ofWords_append, hnine, hquotient, hremainder,
      List.length_append, length_nineDigits, Nat.mul_succ, Nat.add_comm (9 * k) 9,
      Nat.pow_add 10 9 (9 * k), Nat.mod_mul, Nat.pow_add]
    ring

theorem lt_of_mem_extractDigits (k : ℕ) {value below : List ℕ} (h : ∀ d ∈ below, d < 10) :
    ∀ d ∈ extractDigits k value below, d < 10 := by
  induction k generalizing value below with
  | zero => exact h
  | succ k ih =>
    rw [extractDigits]
    apply ih
    rw [List.forall_mem_append]
    exact ⟨fun d hd => lt_of_mem_nineDigits hd, h⟩

/-- The digits stand for the coefficient or, if that is taken for zero, for zero. -/
theorem ofWords_digits : ofWords 10 dec.digits = if dec.isZero then 0 else dec.coefficient := by
  unfold digits
  split_ifs with hzero
  · exact ofWords_singleton 10 0
  · have hlt : dec.coefficient < 2 ^ 113 := by
      rw [isZero_iff] at hzero
      omega
    rw [ofWords_dropWhile, ofWords_extractDigits 4 dec.lt_of_mem_significand128,
      ofWords_significand128, ofWords_nil, List.length_nil, Nat.pow_zero, Nat.one_mul,
      Nat.add_zero, Nat.mod_eq_of_lt (Nat.lt_of_lt_of_le hlt (by decide))]

theorem lt_of_mem_digits : ∀ d ∈ dec.digits, d < 10 := by
  intro d hd
  unfold digits at hd
  split_ifs at hd
  · rw [List.mem_singleton.mp hd]
    decide
  · exact lt_of_mem_extractDigits 4 (fun _ h => absurd h List.not_mem_nil) d
      ((List.dropWhile_sublist _).subset hd)

theorem exists_digits : ∃ d ds, dec.digits = d :: ds ∧
    (dec.isZero ∧ d = 0 ∧ ds = [] ∨ ¬ dec.isZero ∧ d ≠ 0) := by
  have hwords := dec.ofWords_digits
  unfold digits at hwords ⊢
  split_ifs at hwords ⊢ with hzero
  · exact ⟨0, [], rfl, .inl ⟨hzero, rfl, rfl⟩⟩
  · cases hdigits : (extractDigits 4 dec.significand128 []).dropWhile (· == 0) with
    | nil =>
      rw [hdigits, ofWords_nil] at hwords
      have hcoefficient : dec.coefficient = 0 := hwords.symm
      rw [isZero_iff] at hzero
      exact absurd (Or.inl hcoefficient) hzero
    | cons d ds =>
      exact ⟨d, ds, rfl, .inr ⟨hzero, ne_zero_of_dropWhile hdigits⟩⟩

theorem length_digits_le {k : ℕ} (hk : 0 < k) (h : dec.coefficient < 10 ^ k ∨ dec.isZero) :
    dec.digits.length ≤ k := by
  have hwords := dec.ofWords_digits
  obtain ⟨d, ds, hdigits, ⟨-, -, rfl⟩ | ⟨hzero, hd⟩⟩ := dec.exists_digits
  · rw [hdigits]
    exact hk
  · rw [hdigits, if_neg hzero] at hwords
    rw [hdigits]
    exact length_le_of_ofWords_lt (by decide) hd (hwords ▸ h.resolve_right hzero)

theorem length_digits_le_thirtyFive : dec.digits.length ≤ 35 := by
  refine dec.length_digits_le (by decide) ?_
  by_cases hzero : dec.isZero
  · exact .inr hzero
  · rw [isZero_iff] at hzero
    left
    omega

/-! ## Layout of the text -/

theorem putDigits_eq {allowed : ℕ → Bool} {limit : ℕ}
    (hallowed : ∀ m ≤ limit, allowed m = decide (m < limit)) (n : ℕ) (ds : List ℕ)
    (out : List Char) (hout : out.length ≤ limit) :
    putDigits allowed n ds out =
      (out ++ (ds.take (min n (limit - out.length))).map Nat.digitChar,
        ds.drop (min n (limit - out.length))) := by
  induction n generalizing ds out with
  | zero => simp [putDigits]
  | succ n ih =>
    cases ds with
    | nil => simp [putDigits]
    | cons d ds =>
      rw [putDigits, hallowed _ hout]
      rcases Nat.lt_or_ge out.length limit with hlt | hge
      · have hlength : (out ++ [Nat.digitChar d]).length ≤ limit := by
          rw [List.length_append, List.length_singleton]
          exact hlt
        have hmin : min (n + 1) (limit - out.length) =
            min n (limit - (out ++ [Nat.digitChar d]).length) + 1 := by
          rw [List.length_append, List.length_singleton]
          omega
        rw [if_pos (decide_eq_true hlt), ih ds _ hlength, hmin]
        simp
      · have hmin : min (n + 1) (limit - out.length) = 0 := by omega
        rw [if_neg (by simpa using hge), hmin]
        simp

theorem lt_limit : ∀ m ≤ 36, decide (m < 36) = decide (m < 36) := fun _ _ => rfl

theorem ne_limit : ∀ m ≤ 42, decide (m ≠ 42) = decide (m < 42) := by
  intro m hm
  rw [decide_eq_decide]
  omega

/-- The text shows the first of the digits, and all of them if they are no more than 34. -/
structure Shows (layout : DecimalLayout) (zeros k : ℕ) : Prop where
  digits_eq : layout.digits = List.replicate zeros 0 ++ dec.digits.take k
  shown_pos : 0 < k
  all_shown : dec.digits.length ≤ 34 → dec.digits.length ≤ k
  scale_eq : dec.digits.length ≤ 34 → layout.scale = dec.exponent

variable {dec}

theorem length_signText_le (dec : BsonDecimal128) : dec.signText.length ≤ 1 := by
  unfold signText
  split_ifs <;> decide

theorem length_digits_pos (dec : BsonDecimal128) : 0 < dec.digits.length := by
  obtain ⟨d, ds, hdigits, -⟩ := dec.exists_digits
  rw [hdigits]
  exact Nat.succ_pos _

theorem exponent_bounds (hfinite : dec.isFinite) : -6176 ≤ dec.exponent ∧ dec.exponent ≤ 6111 := by
  have hlt := dec.biasedExponent_lt hfinite
  unfold exponent
  omega

theorem scientificText_eq (hfinite : dec.isFinite) : ∃ layout : DecimalLayout, ∃ k,
    dec.scientificText = layout.text dec.isNegative ∧ dec.Shows layout 0 k := by
  obtain ⟨d, ds, hdigits, -⟩ := dec.exists_digits
  have hlt := dec.lt_of_mem_digits
  have hbounds := exponent_bounds hfinite
  have hle := dec.length_digits_le_thirtyFive
  have hsign := dec.length_signText_le
  have hexponent : (plusDecimal dec.scientificExponent).take 5 =
      plusDecimal dec.scientificExponent := by
    apply List.take_of_length_le
    apply length_plusDecimal_le (by decide)
    unfold scientificExponent
    omega
  have hscale : dec.scientificExponent = ds.length + dec.exponent := by
    rw [scientificExponent, hdigits, List.length_cons]
    omega
  rw [hdigits] at hlt hle
  rw [List.length_cons] at hle
  obtain rfl | hne := eq_or_ne ds []
  · refine ⟨⟨[d], none, some dec.scientificExponent, by simp, by simpa using hlt⟩, 1, ?_, ?_⟩
    · rw [scientificText, hexponent, hdigits]
      simp [DecimalLayout.text, decimalText, putDigits, signText]
    · refine ⟨by simp [DecimalLayout.digits, hdigits], by decide, by simp [hdigits], fun _ => ?_⟩
      simpa [DecimalLayout.scale] using hscale
  · have hpos : 0 < ds.length := List.length_pos_of_ne_nil hne
    generalize hm : min ds.length (36 - (dec.signText ++ [Nat.digitChar d] ++ ['.']).length) = m
    have hshort : ds.length ≤ 33 → m = ds.length := by
      simp only [List.length_append, List.length_singleton] at hm
      omega
    have hdigit : ∀ x ∈ [d] ++ ds.take m, x < 10 := by
      intro x hx
      exact hlt x ((List.cons_sublist_cons.mpr (List.take_sublist m ds)).subset hx)
    refine ⟨⟨[d], some (ds.take m), some dec.scientificExponent, by simp, hdigit⟩, m + 1, ?_, ?_⟩
    · have hlimit : (dec.signText ++ [Nat.digitChar d] ++ ['.']).length ≤ 36 := by
        simp only [List.length_append, List.length_singleton]
        omega
      have hput := putDigits_eq lt_limit ds.length ds _ hlimit
      rw [hm] at hput
      simp only [scientificText, hexponent, hdigits, List.length_cons, Nat.add_sub_cancel,
        if_neg hpos.ne', List.take_succ_cons, List.take_zero, List.map_cons, List.map_nil,
        List.tail_cons, hput]
      simp [DecimalLayout.text, decimalText, signText]
    · refine ⟨by simp [DecimalLayout.digits, hdigits], Nat.succ_pos m, ?_, ?_⟩
      all_goals
        intro hlength
        rw [hdigits, List.length_cons] at hlength
        have hfull := hshort (by omega)
      · rw [hdigits, List.length_cons, hfull]
      · simp only [DecimalLayout.scale, Option.getD_some, hscale, List.length_take]
        omega

theorem wholeText_eq (hzero : dec.exponent = 0) : ∃ layout : DecimalLayout, ∃ k,
    dec.wholeText = layout.text dec.isNegative ∧ dec.Shows layout 0 k := by
  have hpos := dec.length_digits_pos
  have hlt := dec.lt_of_mem_digits
  have hsign := dec.length_signText_le
  generalize hm : min dec.digits.length (36 - dec.signText.length) = m
  have hne : dec.digits.take m ≠ [] := by
    rw [ne_eq, List.take_eq_nil_iff, ← List.length_eq_zero_iff]
    omega
  have hdigit : ∀ x ∈ dec.digits.take m ++ [], x < 10 := by
    rw [List.append_nil]
    intro x hx
    exact hlt x ((List.take_sublist m dec.digits).subset hx)
  refine ⟨⟨dec.digits.take m, none, none, hne, hdigit⟩, m, ?_, ?_⟩
  · have hput := putDigits_eq lt_limit dec.digits.length dec.digits dec.signText (by omega)
    rw [wholeText, hput, hm]
    simp [DecimalLayout.text, decimalText, signText]
  · refine ⟨by simp [DecimalLayout.digits], by omega, by omega, fun _ => ?_⟩
    simp [DecimalLayout.scale, hzero]

theorem pointText_eq (hneg : dec.exponent < 0) (hscientific : -6 ≤ dec.scientificExponent) :
    ∃ layout : DecimalLayout, ∃ zeros k,
      dec.pointText = layout.text dec.isNegative ∧ dec.Shows layout zeros k := by
  have hpos := dec.length_digits_pos
  have hlt := dec.lt_of_mem_digits
  have hle := dec.length_digits_le_thirtyFive
  have hsign := dec.length_signText_le
  unfold scientificExponent at hscientific
  rcases lt_or_ge 0 (dec.digits.length + dec.exponent) with hradix | hradix
  · -- digits before the point
    obtain ⟨rp, hrp⟩ := Int.eq_ofNat_of_zero_le hradix.le
    have hrpos : 0 < rp := by omega
    have hrlt : rp < dec.digits.length := by omega
    have hne : dec.digits.take rp ≠ [] := by
      rw [ne_eq, List.take_eq_nil_iff, ← List.length_eq_zero_iff]
      omega
    have hdigit : ∀ x ∈ dec.digits.take rp ++ dec.digits.drop rp, x < 10 := by
      rwa [List.take_append_drop]
    refine ⟨⟨dec.digits.take rp, some (dec.digits.drop rp), none, hne, hdigit⟩, 0,
      dec.digits.length, ?_, ?_⟩
    · have hput := putDigits_eq ne_limit rp dec.digits dec.signText (by omega)
      have hmin : min rp (42 - dec.signText.length) = rp := by omega
      rw [hmin] at hput
      have htrailing : min (dec.digits.length - rp) (42 - (dec.signText ++
          (dec.digits.take rp).map Nat.digitChar ++ ['.']).length) = dec.digits.length - rp := by
        simp only [List.length_append, List.length_map, List.length_take, List.length_singleton]
        omega
      have hdrop : (dec.digits.drop rp).take (dec.digits.length - rp) = dec.digits.drop rp :=
        List.take_of_length_le (by rw [List.length_drop])
      simp only [pointText, hrp, if_pos (Int.natCast_pos.mpr hrpos), Int.toNat_natCast, hput,
        Int.toNat_of_nonpos (neg_nonpos.mpr (Int.natCast_nonneg rp)), putDigits]
      rw [htrailing, hdrop]
      simp [DecimalLayout.text, decimalText, signText]
    · refine ⟨by simp [DecimalLayout.digits], hpos, fun _ => le_rfl, fun _ => ?_⟩
      simp only [DecimalLayout.scale, Option.getD_none, Option.getD_some, List.length_drop]
      omega
  · -- a zero before the point and perhaps some after it
    obtain ⟨z, hz⟩ := Int.eq_ofNat_of_zero_le (neg_nonneg.mpr hradix)
    have hzle : z ≤ 5 := by omega
    generalize hm : min dec.digits.length (42 - (dec.signText ++ ['0'] ++ ['.'] ++
      (List.replicate z 0).map Nat.digitChar).length) = m
    have hlength : (dec.signText ++ ['0'] ++ ['.']).length = dec.signText.length + 2 := by simp
    have hm' : m = min dec.digits.length (40 - dec.signText.length - z) := by
      rw [← hm, List.length_append, hlength, List.length_map, List.length_replicate]
      omega
    have hdigit : ∀ x ∈ [0] ++ (List.replicate z 0 ++ dec.digits.take m), x < 10 := by
      simp only [List.forall_mem_append, List.forall_mem_singleton]
      refine ⟨by decide, ?_, fun x hx => hlt x ((List.take_sublist m _).subset hx)⟩
      intro x hx
      rw [List.eq_of_mem_replicate hx]
      decide
    refine ⟨⟨[0], some (List.replicate z 0 ++ dec.digits.take m), none, by simp, hdigit⟩, z + 1, m,
      ?_, ?_⟩
    · have hput := putDigits_eq ne_limit z (List.replicate z 0)
        (dec.signText ++ ['0'] ++ ['.']) (by omega)
      have hmin : min z (42 - (dec.signText ++ ['0'] ++ ['.']).length) = z := by omega
      have htake : (List.replicate z 0).take z = List.replicate z 0 :=
        List.take_of_length_le (by rw [List.length_replicate])
      have htoNat : (dec.digits.length + dec.exponent).toNat = 0 := Int.toNat_of_nonpos hradix
      rw [hmin, htake] at hput
      simp only [pointText, if_neg (not_lt.mpr hradix), hz, Int.toNat_natCast, hput, htoNat,
        Nat.sub_zero, hm]
      simp [DecimalLayout.text, decimalText, signText]
    · refine ⟨by simp [DecimalLayout.digits, List.replicate_succ], by omega, by omega, ?_⟩
      intro hthirtyFour
      simp only [DecimalLayout.scale, Option.getD_none, Option.getD_some, List.length_append,
        List.length_replicate, List.length_take]
      omega

theorem toText_eq (hfinite : dec.isFinite) : ∃ layout : DecimalLayout, ∃ zeros k,
    dec.toText = layout.text dec.isNegative ∧ dec.Shows layout zeros k := by
  have hne : dec.combination ≠ 30 ∧ dec.combination ≠ 31 := of_decide_eq_true hfinite
  rw [toText, if_neg fun h => hne.1 h.2, if_neg fun h => hne.2 h.2]
  split_ifs with hscientific hwhole
  · obtain ⟨layout, k, h⟩ := scientificText_eq hfinite
    exact ⟨layout, 0, k, h⟩
  · have hexponent : dec.exponent = 0 := by omega
    obtain ⟨layout, k, h⟩ := wholeText_eq hexponent
    exact ⟨layout, 0, k, h⟩
  · exact pointText_eq (by omega) (by omega)

/-- What the text of a finite number is read as: the digits shown, and the exponent if they are
all of them. -/
theorem readDecimal_toText_eq (hfinite : dec.isFinite) : ∃ k > 0, ∃ e,
    readDecimal dec.toText = some ⟨dec.isNegative, ofWords 10 (dec.digits.take k), e⟩ ∧
      (dec.digits.length ≤ 34 → dec.digits.length ≤ k ∧ e = dec.exponent) := by
  obtain ⟨layout, zeros, k, htext, hshows⟩ := toText_eq hfinite
  refine ⟨k, hshows.shown_pos, layout.scale, ?_, fun h => ⟨hshows.all_shown h, hshows.scale_eq h⟩⟩
  rw [htext, layout.readDecimal_text, hshows.digits_eq, ofWords_append, ofWords_replicate_zero,
    Nat.mul_zero, Nat.zero_add]

theorem number_coefficient (h : dec.coefficient < 10 ^ 34 ∨ 2 ^ 113 ≤ dec.coefficient) :
    dec.number.coefficient = ofWords 10 dec.digits := by
  simp only [ofWords_digits, number, isZero_iff]
  split_ifs <;> omega

/-- The text of a finite number stands for the number exactly when its coefficient has at most 34
digits or is one of those that the code takes for zero. -/
theorem readDecimal_toText (hfinite : dec.isFinite) :
    readDecimal dec.toText = some dec.number ↔
      dec.coefficient < 10 ^ 34 ∨ 2 ^ 113 ≤ dec.coefficient := by
  obtain ⟨k, hk, e, hread, hall⟩ := readDecimal_toText_eq hfinite
  constructor
  · intro h
    by_contra! hgap
    have hcoefficient : ofWords 10 (dec.digits.take k) = 0 := by
      rw [hread, Option.some_inj] at h
      have hzero := congrArg DecimalNumber.coefficient h
      rwa [number, if_neg (not_lt.mpr hgap.1)] at hzero
    obtain ⟨d, ds, hdigits, ⟨hzero, -⟩ | ⟨-, hd⟩⟩ := dec.exists_digits
    · rw [isZero_iff] at hzero
      omega
    · obtain ⟨k, rfl⟩ := Nat.exists_eq_succ_of_ne_zero hk.ne'
      rw [hdigits, List.take_succ_cons, ofWords_cons] at hcoefficient
      have hpos := Nat.mul_pos (Nat.pow_pos (n := (ds.take k).length) (show 0 < 10 by decide))
        (Nat.pos_of_ne_zero hd)
      omega
  · intro h
    have hlength : dec.digits.length ≤ 34 := by
      refine dec.length_digits_le (by decide) ?_
      rw [isZero_iff]
      exact h.imp_right Or.inr
    obtain ⟨hshown, rfl⟩ := hall hlength
    rw [hread, List.take_of_length_le hshown, ← number_coefficient h]
    rfl

theorem readDecimal_toText_oneAndHalf :
    readDecimal (toText ⟨0x303e000000000000, 15⟩) = some (number ⟨0x303e000000000000, 15⟩) :=
  (readDecimal_toText (by decide)).mpr (Or.inl (by decide))

/-! ## The buffer -/

theorem length_putDigits_le {allowed : ℕ → Bool} {limit : ℕ}
    (hallowed : ∀ m ≤ limit, allowed m = decide (m < limit)) (n : ℕ) (ds : List ℕ)
    (out : List Char) (hout : out.length ≤ limit) :
    (putDigits allowed n ds out).1.length ≤ limit := by
  rw [putDigits_eq hallowed n ds out hout, List.length_append, List.length_map, List.length_take]
  omega

theorem length_pointText_le (hneg : dec.exponent < 0) : dec.pointText.length ≤ 42 := by
  have hsign := dec.length_signText_le
  have hle := dec.length_digits_le_thirtyFive
  unfold pointText
  extract_lets radixPosition before zeros out trailing
  have hbefore : before.1.length ≤ 41 := by
    simp only [before]
    split_ifs
    · rw [putDigits_eq ne_limit _ _ _ (by omega), List.length_append, List.length_map,
        List.length_take]
      omega
    · rw [List.length_append, List.length_singleton]
      omega
  have hout : out.length ≤ 42 := by
    apply length_putDigits_le ne_limit
    rw [List.length_append, List.length_singleton]
    omega
  rw [List.length_append, List.length_map, List.length_take]
  omega

/-- Every text and the zero byte after it fit `BSON_DECIMAL128_STRING`, which is 43. -/
theorem length_toText_lt (dec : BsonDecimal128) : dec.toText.length < 43 := by
  have hsign := dec.length_signText_le
  have htake : ((dec.digits.take 1).map Nat.digitChar).length ≤ 1 := by
    rw [List.length_map, List.length_take]
    omega
  unfold toText
  split_ifs with hinf hnan hscientific hwhole
  · have hlength : "Infinity".toList.length = 8 := by decide
    rw [List.length_append, hlength]
    omega
  · decide
  · have hput := length_putDigits_le lt_limit
      (dec.digits.length - 1) dec.digits.tail
      (if dec.digits.length - 1 = 0 then dec.signText ++ (dec.digits.take 1).map Nat.digitChar
        else dec.signText ++ (dec.digits.take 1).map Nat.digitChar ++ ['.']) (by
          split_ifs <;> simp only [List.length_append, List.length_singleton] <;> omega)
    have hexponent := List.length_take_le 5 (plusDecimal dec.scientificExponent)
    rw [scientificText, List.length_append, List.length_cons]
    omega
  · have hput := length_putDigits_le lt_limit
      dec.digits.length dec.digits dec.signText (by omega)
    rw [wholeText]
    omega
  · exact Nat.lt_succ_of_le (length_pointText_le (by omega))

end BsonDecimal128

end Mongolite
