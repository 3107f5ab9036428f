import Mongolite.Bson.Decimal128

/-! # Reading decimal numbers of 128 bits

`bson_decimal128_from_string`: the digits with the positions that the code keeps
of them, the exponent, the loops that bring the exponent into its range, and the
bits. Nothing is rounded: a text that needs it is refused and gives NaN. What is
written is always a canonical number, and exactly the canonical numbers come
back from their text.
-/

namespace Mongolite

namespace BsonDecimal128

/-! ## Products of 64-bit numbers -/

def lowHalf (x : UInt64) : UInt64 := x &&& (0xffffffff : UInt64)

def highHalf (x : UInt64) : UInt64 := x >>> (32 : UInt64)

/-- `_mul_64x64`: the high and the low part of a product. -/
def mul64x64 (left right : UInt64) : UInt64 × UInt64 :=
  if left = 0 ∧ right = 0 then (0, 0) else
    let productHigh := highHalf left * highHalf right
    let productMid := highHalf left * lowHalf right
    let productMid2 := lowHalf left * highHalf right
    let productLow := lowHalf left * lowHalf right
    let productHigh' := productHigh + highHalf productMid
    let productMid' := lowHalf productMid + productMid2 + highHalf productLow
    (productHigh' + highHalf productMid', (productMid' <<< (32 : UInt64)) + lowHalf productLow)

@[simp] theorem toNat_lowHalf (x : UInt64) : (lowHalf x).toNat = x.toNat % 2 ^ 32 := by
  rw [lowHalf, UInt64.toNat_and]
  exact Nat.and_two_pow_sub_one_eq_mod x.toNat 32

@[simp] theorem toNat_highHalf (x : UInt64) : (highHalf x).toNat = x.toNat / 2 ^ 32 := by
  rw [highHalf, UInt64.toNat_shiftRight]
  exact Nat.shiftRight_eq_div_pow x.toNat 32

theorem mul_half_le {a b : ℕ} (ha : a < 2 ^ 32) (hb : b < 2 ^ 32) :
    a * b ≤ (2 ^ 32 - 1) * (2 ^ 32 - 1) :=
  Nat.mul_le_mul (Nat.le_sub_one_of_lt ha) (Nat.le_sub_one_of_lt hb)

theorem mul64x64_eq (left right : UInt64) :
    (mul64x64 left right).1.toNat * 2 ^ 64 + (mul64x64 left right).2.toNat =
      left.toNat * right.toNat := by
  by_cases hzero : left = 0 ∧ right = 0
  · rw [mul64x64, if_pos hzero, hzero.1, hzero.2]
    rfl
  · have hl := left.toNat_lt
    have hr := right.toNat_lt
    obtain ⟨a, b, ha, hb, hleft⟩ : ∃ a b, left.toNat / 2 ^ 32 = a ∧ left.toNat % 2 ^ 32 = b ∧
        left.toNat = a * 2 ^ 32 + b := ⟨_, _, rfl, rfl, by omega⟩
    obtain ⟨c, d, hc, hd, hright⟩ : ∃ c d, right.toNat / 2 ^ 32 = c ∧ right.toNat % 2 ^ 32 = d ∧
        right.toNat = c * 2 ^ 32 + d := ⟨_, _, rfl, rfl, by omega⟩
    have hac := mul_half_le (a := a) (b := c) (by omega) (by omega)
    have had := mul_half_le (a := a) (b := d) (by omega) (by omega)
    have hbc := mul_half_le (a := b) (b := c) (by omega) (by omega)
    have hbd := mul_half_le (a := b) (b := d) (by omega) (by omega)
    have hproduct : left.toNat * right.toNat =
        a * c * 2 ^ 64 + (a * d + b * c) * 2 ^ 32 + b * d := by
      rw [hleft, hright]
      ring
    rw [hproduct, mul64x64, if_neg hzero]
    simp only [UInt64.toNat_add, UInt64.toNat_mul, UInt64.toNat_shiftLeft, toNat_lowHalf,
      toNat_highHalf, ha, hb, hc, hd, Nat.shiftLeft_eq]
    generalize a * c = p at *
    generalize a * d = q at *
    generalize b * c = r at *
    generalize b * d = s at *
    have hshift : (UInt64.toNat 32) % 64 = 32 := rfl
    rw [hshift]
    omega

/-! ## Bits -/

def nan : BsonDecimal128 := ⟨0x7c00000000000000, 0⟩

def infinity (isNegative : Bool) : BsonDecimal128 :=
  ⟨0x7800000000000000 + 0x8000000000000000 * (if isNegative then 1 else 0), 0⟩

/-- Both halves of the digits as one number of 128 bits, high part first. -/
def joinSignificand (significandHigh significandLow : UInt64) : UInt64 × UInt64 :=
  let significand := mul64x64 significandHigh 100000000000000000
  let low := significand.2 + significandLow
  (if low < significandLow then significand.1 + 1 else significand.1, low)

def encode (isNegative : Bool) (biasedExponent : UInt64) (significand : UInt64 × UInt64) :
    BsonDecimal128 :=
  let high := if (significand.1 >>> 49) &&& (1 : UInt64) ≠ 0 then
    ((3 : UInt64) <<< 61) ||| ((biasedExponent &&& (0x3fff : UInt64)) <<< 47) |||
      (significand.1 &&& (0x7fffffffffff : UInt64))
  else
    ((biasedExponent &&& (0x3fff : UInt64)) <<< 49) |||
      (significand.1 &&& (0x1ffffffffffff : UInt64))
  ⟨if isNegative then high ||| (0x8000000000000000 : UInt64) else high, significand.2⟩

theorem toNat_add_carry {high low add : UInt64} {p : ℕ}
    (hp : high.toNat * 2 ^ 64 + low.toNat = p) (hlt : p < 2 ^ 114) :
    (if low + add < add then high + 1 else high).toNat * 2 ^ 64 + (low + add).toNat =
      p + add.toNat := by
  have hlow := low.toNat_lt
  have hadd := add.toNat_lt
  have hsum : (low + add).toNat = (low.toNat + add.toNat) % 2 ^ 64 := UInt64.toNat_add low add
  subst hp
  by_cases hcarry : low + add < add
  · have hhigh : high.toNat + 1 < 2 ^ 64 := by
      have hle : high.toNat * 2 ^ 64 < 2 ^ 50 * 2 ^ 64 := Nat.lt_of_le_of_lt (by omega) hlt
      exact Nat.lt_trans (Nat.succ_lt_succ (Nat.lt_of_mul_lt_mul_right hle)) (by decide)
    have hone : (high + 1).toNat = high.toNat + 1 :=
      (UInt64.toNat_add high 1).trans (Nat.mod_eq_of_lt hhigh)
    rw [UInt64.lt_iff_toNat_lt, hsum] at hcarry
    have hwrap : (low.toNat + add.toNat) % 2 ^ 64 + 2 ^ 64 = low.toNat + add.toNat := by omega
    rw [if_pos (by rwa [UInt64.lt_iff_toNat_lt, hsum]), hone, hsum, Nat.succ_mul,
      Nat.add_assoc, Nat.add_comm (2 ^ 64), hwrap, Nat.add_assoc]
  · rw [if_neg hcarry, hsum]
    rw [UInt64.lt_iff_toNat_lt, hsum] at hcarry
    have hfit : (low.toNat + add.toNat) % 2 ^ 64 = low.toNat + add.toNat := by omega
    rw [hfit, Nat.add_assoc]

theorem joinSignificand_eq {significandHigh significandLow : UInt64}
    (h : significandHigh.toNat < 10 ^ 17) :
    (joinSignificand significandHigh significandLow).1.toNat * 2 ^ 64 +
      (joinSignificand significandHigh significandLow).2.toNat =
        significandHigh.toNat * 10 ^ 17 + significandLow.toNat := by
  have hbound : significandHigh.toNat * 10 ^ 17 < 2 ^ 114 :=
    calc significandHigh.toNat * 10 ^ 17 < 10 ^ 17 * 10 ^ 17 :=
          Nat.mul_lt_mul_of_pos_right h (by decide)
      _ < 2 ^ 114 := by decide
  exact toNat_add_carry (mul64x64_eq significandHigh 100000000000000000) hbound

theorem toNat_encode_high {biasedExponent : UInt64} {significand : UInt64 × UInt64}
    (hbiased : biasedExponent.toNat < 2 ^ 14) (hhigh : significand.1.toNat < 2 ^ 49)
    (isNegative : Bool) :
    (encode isNegative biasedExponent significand).high.toNat =
      (if isNegative then 2 ^ 63 else 0) +
        (biasedExponent.toNat * 2 ^ 49 + significand.1.toNat) := by
  have hbit : ¬ (significand.1 >>> 49) &&& (1 : UInt64) ≠ 0 := by
    rw [not_not]
    apply UInt64.toNat_inj.mp
    rw [UInt64.toNat_and, UInt64.toNat_shiftRight]
    have hzero : significand.1.toNat >>> 49 = 0 := by
      rw [Nat.shiftRight_eq_div_pow]
      exact Nat.div_eq_of_lt hhigh
    exact (congrArg (· &&& 1) hzero).trans rfl
  have hmask : (biasedExponent &&& (0x3fff : UInt64)).toNat = biasedExponent.toNat := by
    rw [UInt64.toNat_and]
    exact (Nat.and_two_pow_sub_one_eq_mod _ 14).trans (Nat.mod_eq_of_lt hbiased)
  have hmask' : (significand.1 &&& (0x1ffffffffffff : UInt64)).toNat = significand.1.toNat := by
    rw [UInt64.toNat_and]
    exact (Nat.and_two_pow_sub_one_eq_mod _ 49).trans (Nat.mod_eq_of_lt hhigh)
  have hshift : ((biasedExponent &&& (0x3fff : UInt64)) <<< (49 : UInt64)).toNat =
      2 ^ 49 * biasedExponent.toNat := by
    rw [UInt64.toNat_shiftLeft, hmask, Nat.shiftLeft_eq]
    have hfortyNine : (49 : UInt64).toNat % 64 = 49 := rfl
    rw [hfortyNine]
    omega
  rw [encode, if_neg hbit]
  cases isNegative with
  | false =>
    simp only [Bool.false_eq_true, if_false]
    rw [UInt64.toNat_or, hshift, hmask', ← Nat.two_pow_add_eq_or_of_lt hhigh]
    omega
  | true =>
    have hsign : (0x8000000000000000 : UInt64).toNat = 2 ^ 63 * 1 := rfl
    simp only [if_true]
    rw [UInt64.toNat_or, UInt64.toNat_or, hshift, hmask', ← Nat.two_pow_add_eq_or_of_lt hhigh,
      hsign, Nat.or_comm, ← Nat.two_pow_add_eq_or_of_lt (by omega)]
    omega

/-! ## Canonical numbers -/

/-- A coefficient of at most 34 digits, an infinity or the NaN that the code writes. -/
inductive IsCanonical : BsonDecimal128 → Prop
  | finite {dec : BsonDecimal128} (hcoefficient : dec.coefficient < 10 ^ 34) : IsCanonical dec
  | infinity (isNegative : Bool) : IsCanonical (infinity isNegative)
  | nan : IsCanonical nan

variable {dec dec' : BsonDecimal128}

theorem combination_lt_of_coefficient_lt (h : dec.coefficient < 10 ^ 34) :
    dec.combination < 24 := by
  have hlt : dec.combination < 32 := dec.combination_eq ▸ Nat.mod_lt _ (by decide)
  unfold coefficient at h
  split_ifs at h <;> omega

theorem isFinite_of_coefficient_lt (h : dec.coefficient < 10 ^ 34) : dec.isFinite := by
  have hlt := combination_lt_of_coefficient_lt h
  exact decide_eq_true ⟨by omega, by omega⟩

theorem high_eq (h : dec.combination < 24) : dec.high.toNat =
    (if dec.isNegative then 2 ^ 63 else 0) +
      (dec.biasedExponent * 2 ^ 49 + dec.high.toNat % 2 ^ 49) := by
  have hlt := dec.high.toNat_lt
  have hword := dec.highWord_eq
  have hspecial : dec.combination / 8 ≠ 3 := by omega
  rw [biasedExponent_eq, if_neg hspecial, isNegative]
  simp only [decide_eq_true_eq]
  split_ifs <;> omega

theorem eq_of_number_eq (h : dec.coefficient < 10 ^ 34) (h' : dec'.coefficient < 10 ^ 34)
    (hnumber : dec.number = dec'.number) : dec = dec' := by
  have hsmall := combination_lt_of_coefficient_lt h
  have hsmall' := combination_lt_of_coefficient_lt h'
  rw [number, number, if_pos h, if_pos h', DecimalNumber.mk.injEq] at hnumber
  obtain ⟨hnegative, hcoefficient, hexponent⟩ := hnumber
  have hlow := dec.low.toNat_lt
  have hlow' := dec'.low.toNat_lt
  have hhigh := high_eq hsmall
  have hhigh' := high_eq hsmall'
  have hspecial : dec.combination / 8 ≠ 3 := by omega
  have hspecial' : dec'.combination / 8 ≠ 3 := by omega
  rw [coefficient, coefficient, if_neg hspecial, if_neg hspecial'] at hcoefficient
  have hbiased : dec.biasedExponent = dec'.biasedExponent := by
    unfold exponent at hexponent
    omega
  have hmod : dec.high.toNat % 2 ^ 49 = dec'.high.toNat % 2 ^ 49 := by omega
  have heq : dec.high.toNat = dec'.high.toNat := by
    rw [hhigh, hhigh', hnegative, hbiased, hmod]
  have heq' : dec.low.toNat = dec'.low.toNat := by omega
  cases dec
  cases dec'
  rw [BsonDecimal128.mk.injEq]
  exact ⟨UInt64.toNat_inj.mp heq, UInt64.toNat_inj.mp heq'⟩

theorem encode_spec {biasedExponent : UInt64} {significand : UInt64 × UInt64}
    (hbiased : biasedExponent.toNat < 12288)
    (hcoefficient : significand.1.toNat * 2 ^ 64 + significand.2.toNat < 10 ^ 34)
    (isNegative : Bool) :
    (encode isNegative biasedExponent significand).coefficient < 10 ^ 34 ∧
      (encode isNegative biasedExponent significand).number =
        ⟨isNegative, significand.1.toNat * 2 ^ 64 + significand.2.toNat,
          biasedExponent.toNat - 6176⟩ := by
  have hsignificand : significand.1.toNat < 2 ^ 49 := by omega
  have hfits : biasedExponent.toNat < 2 ^ 14 := by omega
  have hhigh := toNat_encode_high hfits hsignificand isNegative
  have hlow : (encode isNegative biasedExponent significand).low = significand.2 := rfl
  generalize encode isNegative biasedExponent significand = dec at hhigh hlow ⊢
  have hword := dec.highWord_eq
  have hlt : (if isNegative then 2 ^ 63 else 0) ≤ 2 ^ 63 := by split_ifs <;> omega
  have hcombination : dec.combination / 8 ≠ 3 := by
    rw [combination_eq, hword, hhigh]
    split_ifs <;> omega
  have hcoefficient' : dec.coefficient = significand.1.toNat * 2 ^ 64 + significand.2.toNat := by
    rw [coefficient, if_neg hcombination, hhigh, hlow]
    split_ifs <;> omega
  have hexponent : dec.biasedExponent = biasedExponent.toNat := by
    rw [biasedExponent_eq, if_neg hcombination, hword, hhigh]
    split_ifs <;> omega
  have hnegative : dec.isNegative = isNegative := by
    rw [BsonDecimal128.isNegative, hhigh]
    cases isNegative
    · exact decide_eq_false (by simp only [Bool.false_eq_true, if_false]; omega)
    · exact decide_eq_true (by simp only [if_true]; omega)
  refine ⟨hcoefficient' ▸ hcoefficient, ?_⟩
  rw [number, hcoefficient', if_pos hcoefficient, hnegative, exponent, hexponent]

/-! ## Reading the text -/

def dec128Tolower (c : Char) : Char := if c.isUpper then Char.ofNat (c.toNat + 32) else c

def dec128Istreq : List Char → List Char → Bool
  | [], [] => true
  | a :: as, b :: bs => dec128Tolower a == dec128Tolower b && dec128Istreq as bs
  | _, _ => false

structure DigitScan where
  sawRadix : Bool
  foundNonzero : Bool
  ndigitsRead : ℕ
  ndigits : ℕ
  radixPosition : ℕ
  firstNonzero : ℕ
  digits : List ℕ

namespace DigitScan

/-- One digit: it is stored if it is none of the zeros in front and fewer than 34 are. -/
def digit (st : DigitScan) (c : Char) : DigitScan :=
  let stored := st.digits.length < 34 ∧ (c ≠ '0' ∨ st.foundNonzero)
  let found := st.foundNonzero || stored
  { st with
    foundNonzero := found
    ndigitsRead := st.ndigitsRead + 1
    ndigits := if found then st.ndigits + 1 else st.ndigits
    radixPosition := if st.sawRadix then st.radixPosition + 1 else st.radixPosition
    firstNonzero := if stored ∧ ¬ st.foundNonzero then st.ndigitsRead else st.firstNonzero
    digits := if stored then st.digits ++ [c.toNat - '0'.toNat] else st.digits }

/-- The loop over digits and the point; a second point ends the reading. -/
def readDigits (st : DigitScan) : List Char → Option (DigitScan × List Char)
  | [] => some (st, [])
  | c :: cs =>
    if c = '.' then if st.sawRadix then none else readDigits { st with sawRadix := true } cs
    else if c.isDigit then readDigits (st.digit c) cs
    else some (st, c :: cs)

end DigitScan

/-- `sscanf` with `%lld%n`: the integer and what follows it. -/
def scanInteger (cs : List Char) : Option (ℤ × List Char) :=
  let signed := takeSign (cs.dropWhile isSpace)
  let ds := signed.2.takeWhile Char.isDigit
  let n := (Nat.ofDigitChars 10 ds 0 : ℤ)
  if ds = [] then none else some (if signed.1 then -n else n, signed.2.dropWhile Char.isDigit)

def readExponent : List Char → Option (ℤ × List Char)
  | [] => some (0, [])
  | c :: cs =>
    if c = 'e' ∨ c = 'E' then
      (scanInteger cs).bind fun scanned =>
        if -2 ^ 31 ≤ scanned.1 ∧ scanned.1 < 2 ^ 31 then some scanned else none
    else some (0, c :: cs)

/-- The digits without the zeros at the end, where `charAt k` is the `k`-th digit. -/
def trimZeros (charAt : ℕ → Char) : ℕ → ℕ
  | 0 => 0
  | n + 1 => if charAt n = '0' then trimZeros charAt n else n + 1

/-- An exponent above the range is lowered by zeros behind the last digit. -/
def shiftUp (significantDigits : ℕ) (exponent : ℤ) (lastDigit : ℕ) : Option (ℤ × ℕ) :=
  if 6111 < exponent then
    if 34 ≤ lastDigit + 1 then
      if significantDigits = 0 then some (6111, lastDigit + 1) else none
    else shiftUp significantDigits (exponent - 1) (lastDigit + 1)
  else some (exponent, lastDigit)
termination_by 34 - lastDigit

/-- An exponent below the range is raised, and digits that were not stored are given up, as long
as they are zero. -/
def shiftDown (significantDigits : ℕ) (digits : List ℕ) (charAt : ℕ → Char) (exponent : ℤ)
    (lastDigit ndigits : ℕ) : Option (ℤ × ℕ) :=
  if exponent < -6176 ∨ digits.length < ndigits then
    if lastDigit = 0 then
      if significantDigits = 0 then some (-6176, lastDigit) else none
    else if digits.length < ndigits then
      if charAt (ndigits - 1) ≠ '0' ∧ significantDigits ≠ 0 then none
      else if exponent < 6111 then
        shiftDown significantDigits digits charAt (exponent + 1) lastDigit (ndigits - 1)
      else none
    else if digits.getD lastDigit 0 ≠ 0 then none
    else if exponent < 6111 then
      shiftDown significantDigits digits charAt (exponent + 1) (lastDigit - 1) ndigits
    else none
  else some (exponent, lastDigit)
termination_by ndigits + lastDigit

def accumulate (ds : List ℕ) : UInt64 := UInt64.ofNat (ds.foldl (fun n d => n * 10 + d) 0)

/-- The significand of the digits up to the last, in two halves if there are more than 17. -/
def significandOf (significantDigits : ℕ) (digits : List ℕ) (lastDigit : ℕ) : UInt64 × UInt64 :=
  let stored := digits ++ List.replicate (34 - digits.length) 0
  if significantDigits = 0 then joinSignificand 0 0
  else if lastDigit < 17 then joinSignificand 0 (accumulate (stored.take (lastDigit + 1)))
  else joinSignificand (accumulate (stored.take (lastDigit - 16)))
    (accumulate ((stored.take (lastDigit + 1)).drop (lastDigit - 16)))

def finish (text : List Char) (includesSign isNegative : Bool) (st : DigitScan)
    (exponent : ℤ) : Option BsonDecimal128 :=
  let charAt := fun k => text.getD (k + includesSign.toNat + st.sawRadix.toNat) '\x00'
  let digits := if st.digits = [] then [0] else st.digits
  let ndigits := if st.digits = [] then 1 else st.ndigits
  let significantDigits := if st.digits = [] then 0
    else trimZeros (fun k => charAt (st.firstNonzero + k)) st.ndigits
  let shifted := if exponent ≤ st.radixPosition ∧ exponent + 2 ^ 14 < st.radixPosition then -6176
    else exponent - st.radixPosition
  (shiftUp significantDigits shifted (digits.length - 1)).bind fun up =>
  (shiftDown significantDigits digits charAt up.1 up.2 ndigits).bind fun down =>
  if down.2 + 1 < significantDigits ∧ charAt (st.firstNonzero + down.2 + 1) ≠ '0' then none
  else
    some (encode isNegative (UInt64.ofNat (down.1 + 6176).toNat)
      (significandOf significantDigits digits down.2))

/-- A text of digits; `none` is a text that is refused. -/
def parse (text : List Char) : Option BsonDecimal128 :=
  let includesSign := text.head? = some '+' ∨ text.head? = some '-'
  let isNegative := text.head? = some '-'
  let rest := if includesSign then text.tail else text
  if ¬ rest.head?.any fun c => c.isDigit || c = '.' then
    if dec128Istreq rest "inf".toList ∨ dec128Istreq rest "infinity".toList then
      some (infinity isNegative)
    else if dec128Istreq rest "nan".toList then some nan
    else none
  else
    (DigitScan.readDigits ⟨false, false, 0, 0, 0, 0, []⟩ rest).bind fun scanned =>
    if scanned.1.sawRadix ∧ scanned.1.ndigitsRead = 0 then none
    else (readExponent scanned.2).bind fun e =>
      if e.2 ≠ [] then none else finish text includesSign isNegative scanned.1 e.1

/-- `bson_decimal128_from_string`: whether it succeeds and what it writes. -/
def fromText (text : List Char) : Bool × BsonDecimal128 :=
  match parse text with
  | some dec => (true, dec)
  | none => (false, nan)

/-! ## What is written is canonical -/

theorem toNat_digit_lt {c : Char} (h : c.isDigit) : c.toNat - '0'.toNat < 10 := by
  have hle := (Char.isDigit_iff_toNat.mp h).2
  have hzero : '0'.toNat = 48 := rfl
  have hnine : '9'.toNat = 57 := rfl
  omega

theorem DigitScan.readDigits_digits {st st' : DigitScan} {cs rest : List Char}
    (hread : st.readDigits cs = some (st', rest)) (hlt : ∀ d ∈ st.digits, d < 10)
    (hlength : st.digits.length ≤ 34) :
    (∀ d ∈ st'.digits, d < 10) ∧ st'.digits.length ≤ 34 := by
  induction cs generalizing st with
  | nil =>
    obtain ⟨rfl, -⟩ := Prod.mk.injEq _ _ _ _ ▸ Option.some_inj.mp hread
    exact ⟨hlt, hlength⟩
  | cons c cs ih =>
    rw [readDigits] at hread
    split_ifs at hread with hpoint hradix hdigit
    · exact ih hread hlt hlength
    · apply ih hread
      · simp only [digit]
        split_ifs
        · rw [List.forall_mem_append, List.forall_mem_singleton]
          exact ⟨hlt, toNat_digit_lt hdigit⟩
        · exact hlt
      · simp only [digit]
        split_ifs with hstored
        · rw [List.length_append]
          exact hstored.1
        · exact hlength
    · obtain ⟨rfl, -⟩ := Prod.mk.injEq _ _ _ _ ▸ Option.some_inj.mp hread
      exact ⟨hlt, hlength⟩

theorem shiftUp_spec {significantDigits : ℕ} {exponent e : ℤ} {lastDigit l : ℕ}
    (h : shiftUp significantDigits exponent lastDigit = some (e, l)) (hlast : lastDigit < 34) :
    e ≤ 6111 ∧ (significantDigits = 0 ∨ l < 34) := by
  induction exponent, lastDigit using shiftUp.induct significantDigits with
  | case1 exponent lastDigit hup hfull hzero =>
    rw [shiftUp, if_pos hup, if_pos hfull, if_pos hzero] at h
    cases h
    exact ⟨le_rfl, .inl hzero⟩
  | case2 exponent lastDigit hup hfull hzero =>
    rw [shiftUp, if_pos hup, if_pos hfull, if_neg hzero] at h
    cases h
  | case3 exponent lastDigit hup hroom ih =>
    rw [shiftUp, if_pos hup, if_neg hroom] at h
    exact ih h (by omega)
  | case4 exponent lastDigit hup =>
    rw [shiftUp, if_neg hup] at h
    cases h
    exact ⟨not_lt.mp hup, .inr hlast⟩

theorem shiftDown_spec {significantDigits : ℕ} {digits : List ℕ} {charAt : ℕ → Char}
    {exponent e : ℤ} {lastDigit ndigits l : ℕ}
    (h : shiftDown significantDigits digits charAt exponent lastDigit ndigits = some (e, l))
    (hexponent : exponent ≤ 6111) : -6176 ≤ e ∧ e ≤ 6111 ∧ l ≤ lastDigit := by
  induction hsteps : ndigits + lastDigit using Nat.strong_induction_on
    generalizing exponent lastDigit ndigits with
  | _ steps ih =>
    rw [shiftDown] at h
    split_ifs at h with hlow hlast hzero hmore hdropped hroom hlost hroom
    · cases h
      exact ⟨le_rfl, by decide, le_rfl⟩
    · exact ih (ndigits - 1 + lastDigit) (by omega) h (by omega) rfl
    · obtain ⟨hge, hle, hl⟩ := ih (ndigits + (lastDigit - 1)) (by omega) h (by omega) rfl
      exact ⟨hge, hle, by omega⟩
    · cases h
      exact ⟨by omega, hexponent, le_rfl⟩

theorem toNat_accumulate {ds : List ℕ} (hlt : ∀ d ∈ ds, d < 10) (hlength : ds.length ≤ 17) :
    (accumulate ds).toNat = ofWords 10 ds := by
  have hfold : ds.foldl (fun n d => n * 10 + d) 0 = ofWords 10 ds := by
    clear hlength
    induction ds using List.reverseRecOn with
    | nil => exact (ofWords_nil 10).symm
    | append_singleton ds d ih =>
      rw [List.foldl_append, ih (List.forall_mem_append.mp hlt).1, ofWords_append,
        ofWords_singleton, List.length_singleton, Nat.pow_one, Nat.mul_comm]
      rfl
  have hbound : ofWords 10 ds < 2 ^ 64 :=
    calc ofWords 10 ds < 10 ^ ds.length := ofWords_lt (by decide) hlt
      _ ≤ 10 ^ 17 := Nat.pow_le_pow_right (by decide) hlength
      _ < 2 ^ 64 := by decide
  rw [accumulate, hfold, UInt64.toNat_ofNat', Nat.mod_eq_of_lt hbound]

/-- The significand is the number that the digits up to the last stand for. -/
theorem significandOf_eq {significantDigits lastDigit : ℕ} {digits : List ℕ}
    (hlt : ∀ d ∈ digits, d < 10) (hlast : significantDigits = 0 ∨ lastDigit < 34) :
    (significandOf significantDigits digits lastDigit).1.toNat * 2 ^ 64 +
        (significandOf significantDigits digits lastDigit).2.toNat =
      if significantDigits = 0 then 0 else
        ofWords 10 ((digits ++ List.replicate (34 - digits.length) 0).take (lastDigit + 1)) := by
  have hjoin : ∀ low, (joinSignificand 0 low).1.toNat * 2 ^ 64 + (joinSignificand 0 low).2.toNat =
      low.toNat := by
    intro low
    have hzero : (0 : UInt64).toNat < 10 ^ 17 := by decide
    exact (joinSignificand_eq hzero).trans (Nat.zero_add _)
  rw [significandOf]
  generalize hstored : digits ++ List.replicate (34 - digits.length) 0 = stored
  have hslice : ∀ m n, ∀ d ∈ (stored.take n).drop m, d < 10 := by
    intro m n d hd
    have hmem := (List.take_sublist n stored).subset ((List.drop_sublist m _).subset hd)
    rw [← hstored, List.mem_append] at hmem
    rcases hmem with hmem | hmem
    · exact hlt d hmem
    · rw [List.eq_of_mem_replicate hmem]
      decide
  by_cases hnone : significantDigits = 0
  · rw [if_pos hnone, if_pos hnone, hjoin]
    rfl
  rw [if_neg hnone, if_neg hnone]
  by_cases hshort : lastDigit < 17
  · rw [if_pos hshort, hjoin]
    apply toNat_accumulate (hslice 0 _)
    rw [List.drop_zero, List.length_take]
    omega
  · have hlength : 34 ≤ stored.length := by
      rw [← hstored, List.length_append, List.length_replicate]
      omega
    have hhigh : (accumulate (stored.take (lastDigit - 16))).toNat =
        ofWords 10 (stored.take (lastDigit - 16)) := by
      apply toNat_accumulate (hslice 0 _)
      rw [List.drop_zero, List.length_take]
      omega
    have hcount : ((stored.take (lastDigit + 1)).drop (lastDigit - 16)).length = 17 := by
      rw [List.length_drop, List.length_take]
      omega
    have hlow := toNat_accumulate (hslice (lastDigit - 16) (lastDigit + 1)) hcount.le
    have hlt' : ofWords 10 (stored.take (lastDigit - 16)) < 10 ^ 17 := by
      apply Nat.lt_of_lt_of_le (ofWords_lt (by decide) (hslice 0 _))
      apply Nat.pow_le_pow_right (by decide)
      rw [List.drop_zero, List.length_take]
      omega
    have hsplit : stored.take (lastDigit + 1) = stored.take (lastDigit - 16) ++
        (stored.take (lastDigit + 1)).drop (lastDigit - 16) := by
      have htake := List.take_append_drop (lastDigit - 16) (stored.take (lastDigit + 1))
      rw [List.take_take, Nat.min_eq_left (by omega)] at htake
      exact htake.symm
    rw [if_neg hshort, joinSignificand_eq (hhigh ▸ hlt'), hhigh, hlow, hsplit, ofWords_append,
      ← hsplit, hcount, Nat.mul_comm]


theorem encode_significandOf {significantDigits lastDigit : ℕ} {digits : List ℕ} {e : ℤ}
    (hlt : ∀ d ∈ digits, d < 10) (hlast : significantDigits = 0 ∨ lastDigit < 34)
    (hlow : -6176 ≤ e) (hhigh : e ≤ 6111) (isNegative : Bool) :
    (encode isNegative (UInt64.ofNat (e + 6176).toNat)
        (significandOf significantDigits digits lastDigit)).coefficient < 10 ^ 34 ∧
      (encode isNegative (UInt64.ofNat (e + 6176).toNat)
        (significandOf significantDigits digits lastDigit)).number =
        ⟨isNegative, if significantDigits = 0 then 0 else
          ofWords 10 ((digits ++ List.replicate (34 - digits.length) 0).take (lastDigit + 1)),
          e⟩ := by
  have hbiased : (UInt64.ofNat (e + 6176).toNat).toNat = (e + 6176).toNat := by
    rw [UInt64.toNat_ofNat', Nat.mod_eq_of_lt (by omega)]
  have hsignificand := significandOf_eq hlt hlast
  have hbound : (if significantDigits = 0 then 0 else
      ofWords 10 ((digits ++ List.replicate (34 - digits.length) 0).take (lastDigit + 1))) <
        10 ^ 34 := by
    by_cases hnone : significantDigits = 0
    · rw [if_pos hnone]
      decide
    · rw [if_neg hnone]
      refine Nat.lt_of_lt_of_le (ofWords_lt (by decide) fun d hd => ?_) (Nat.pow_le_pow_right
        (by decide) ((List.length_take_le _ _).trans (hlast.resolve_left hnone)))
      rcases List.mem_append.mp ((List.take_sublist _ _).subset hd) with hd | hd
      · exact hlt d hd
      · rw [List.eq_of_mem_replicate hd]
        decide
  have hfits : (UInt64.ofNat (e + 6176).toNat).toNat < 12288 := by omega
  have hspec := encode_spec hfits (hsignificand ▸ hbound) isNegative
  rw [hsignificand, hbiased] at hspec
  have he : ((e + 6176).toNat : ℤ) - 6176 = e := by omega
  rwa [he] at hspec

theorem finish_canonical {text : List Char} {includesSign isNegative : Bool} {st : DigitScan}
    {exponent : ℤ} {dec : BsonDecimal128}
    (h : finish text includesSign isNegative st exponent = some dec)
    (hlt : ∀ d ∈ st.digits, d < 10) (hlength : st.digits.length ≤ 34) :
    dec.coefficient < 10 ^ 34 := by
  unfold finish at h
  extract_lets charAt digits ndigits significantDigits shifted at h
  have hdigits : ∀ d ∈ digits, d < 10 := by
    simp only [digits]
    split_ifs
    · rw [List.forall_mem_singleton]
      decide
    · exact hlt
  have hcount : digits.length - 1 < 34 := by
    simp only [digits]
    split_ifs
    · decide
    · omega
  obtain ⟨⟨up, upDigit⟩, hup, h⟩ := Option.bind_eq_some_iff.mp h
  obtain ⟨⟨down, downDigit⟩, hdown, h⟩ := Option.bind_eq_some_iff.mp h
  obtain ⟨hupLe, hupDigit⟩ := shiftUp_spec hup hcount
  obtain ⟨hlow, hhigh, hdownDigit⟩ := shiftDown_spec hdown hupLe
  have hlast : significantDigits = 0 ∨ downDigit < 34 := hupDigit.imp_right fun h => by omega
  split_ifs at h
  cases h
  exact (encode_significandOf hdigits hlast hlow hhigh isNegative).1

/-- Whatever the text, what is written is canonical, and it is the NaN if the text is refused. -/
theorem fromText_canonical (text : List Char) :
    IsCanonical (fromText text).2 ∧ ((fromText text).1 = false → (fromText text).2 = nan) := by
  unfold fromText
  cases hparse : parse text with
  | none => exact ⟨.nan, fun _ => rfl⟩
  | some dec =>
    refine ⟨?_, fun h => absurd h Bool.noConfusion⟩
    unfold parse at hparse
    extract_lets includesSign isNegative rest at hparse
    split_ifs at hparse with hdigit hinf hnan
    · obtain ⟨⟨st, rest'⟩, hscan, hparse⟩ := Option.bind_eq_some_iff.mp hparse
      obtain ⟨hlt, hlength⟩ := DigitScan.readDigits_digits hscan (by simp) (by simp)
      split_ifs at hparse
      obtain ⟨e, -, hparse⟩ := Option.bind_eq_some_iff.mp hparse
      split_ifs at hparse
      exact .finite (finish_canonical hparse hlt hlength)
    · cases hparse
      exact .infinity _
    · cases hparse
      exact .nan

end BsonDecimal128

end Mongolite
