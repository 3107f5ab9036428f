import Mathlib.Algebra.Group.Nat.Defs
import Mongolite.Library.Utf8

/-! # Validation of UTF-8

`bson_utf8_validate` goes through a text sequence by sequence. It accepts the
bytes of characters and nothing else, except that, where zero bytes are allowed,
a zero character may also be written in two bytes.
-/

namespace Mongolite

/-- `mcommon_utf8_get_sequence`: the length of a sequence and the mask of its first byte. -/
def mcommonUtf8GetSequence (c : UInt8) : ℕ × ℕ :=
  if c &&& 0x80 = 0 then (1, 0x7F)
  else if c &&& 0xE0 = 0xC0 then (2, 0x1F)
  else if c &&& 0xF0 = 0xE0 then (3, 0x0F)
  else if c &&& 0xF8 = 0xF0 then (4, 0x07)
  else (0, 0)

/-- The code point of a sequence, whose first byte is masked. -/
def sequenceValue (firstMask : ℕ) : List UInt8 → ℕ
  | [] => 0
  | b :: tail =>
    tail.foldl (fun c b => (c <<< 6) ||| (b.toNat &&& 0x3F)) (b.toNat &&& firstMask)

/-- The shortest form of a code point has this length; a zero may have two bytes. -/
def isShortestForm (allowNull : Bool) (seqLength c : ℕ) : Bool :=
  match seqLength with
  | 1 => c ≤ 0x7F
  | 2 => (0x80 ≤ c ∧ c ≤ 0x7FF) || (c = 0 && allowNull)
  | 3 => (0x800 ≤ c ∧ c ≤ 0xFFF) || (0x1000 ≤ c ∧ c ≤ 0xFFFF)
  | 4 => (0x10000 ≤ c ∧ c ≤ 0x3FFFF) || (0x40000 ≤ c ∧ c ≤ 0xFFFFF) ||
      (0x100000 ≤ c ∧ c ≤ 0x10FFFF)
  | _ => false

def isSequence (allowNull : Bool) (firstMask : ℕ) (seq : List UInt8) : Bool :=
  let c := sequenceValue firstMask seq
  seq.tail.all (fun b => b &&& 0xC0 = 0x80) && (allowNull || seq.all (· ≠ 0)) &&
    c ≤ 0x10FFFF && c &&& 0xFFFFF800 ≠ 0xD800 && isShortestForm allowNull seq.length c

def bsonUtf8Validate (allowNull : Bool) : List UInt8 → Bool
  | [] => true
  | b :: rest =>
    let sequence := mcommonUtf8GetSequence b
    if sequence.1 = 0 then false
    else if (b :: rest).length < sequence.1 then false
    else
      isSequence allowNull sequence.2 ((b :: rest).take sequence.1) &&
        bsonUtf8Validate allowNull (rest.drop (sequence.1 - 1))
termination_by s => s.length

/-- Bytes that spell characters; where zeros are allowed, a zero may have two bytes. -/
inductive Utf8Spells (allowNull : Bool) : List UInt8 → List Char → Prop
  | nil : Utf8Spells allowNull [] []
  | char {s : List UInt8} {cs : List Char} (c : Char) (hnull : allowNull = true ∨ c ≠ '\x00')
      (h : Utf8Spells allowNull s cs) :
      Utf8Spells allowNull (String.utf8EncodeChar c ++ s) (c :: cs)
  | null {s : List UInt8} {cs : List Char} (hnull : allowNull = true)
      (h : Utf8Spells allowNull s cs) : Utf8Spells allowNull (0xC0 :: 0x80 :: s) ('\x00' :: cs)

variable {allowNull : Bool} {s seq : List UInt8} {b : UInt8} {c : Char} {v : ℕ}

/-! ## The first byte and the others -/

/-- A first byte of a sequence of `n` bytes, `k` of whose bits belong to the code point. -/
inductive IsFirstByte (b : UInt8) : ℕ → ℕ → Prop
  | one (h : b.toNat < 128) : IsFirstByte b 1 7
  | two (h : 192 ≤ b.toNat) (h' : b.toNat < 224) : IsFirstByte b 2 5
  | three (h : 224 ≤ b.toNat) (h' : b.toNat < 240) : IsFirstByte b 3 4
  | four (h : 240 ≤ b.toNat) (h' : b.toNat < 248) : IsFirstByte b 4 3

theorem getSequence_eq (b : UInt8) : mcommonUtf8GetSequence b =
    if b.toNat < 128 then (1, 2 ^ 7 - 1) else if b.toNat < 192 then (0, 0)
    else if b.toNat < 224 then (2, 2 ^ 5 - 1) else if b.toNat < 240 then (3, 2 ^ 4 - 1)
    else if b.toNat < 248 then (4, 2 ^ 3 - 1) else (0, 0) := by
  have hall : ∀ n < 256, mcommonUtf8GetSequence (UInt8.ofNat n) =
      if n < 128 then (1, 2 ^ 7 - 1) else if n < 192 then (0, 0)
      else if n < 224 then (2, 2 ^ 5 - 1) else if n < 240 then (3, 2 ^ 4 - 1)
      else if n < 248 then (4, 2 ^ 3 - 1) else (0, 0) := by decide +kernel
  have hb := hall b.toNat b.toNat_lt
  rwa [UInt8.ofNat_toNat] at hb

theorem IsFirstByte.getSequence_eq {n k : ℕ} (h : IsFirstByte b n k) :
    mcommonUtf8GetSequence b = (n, 2 ^ k - 1) := by
  rw [Mongolite.getSequence_eq]
  cases h <;> split_ifs <;> first | rfl | omega

theorem isFirstByte_or (b : UInt8) :
    mcommonUtf8GetSequence b = (0, 0) ∨ ∃ n k, IsFirstByte b n k := by
  rw [getSequence_eq]
  split_ifs with h₁ h₂ h₃ h₄ h₅
  · exact .inr ⟨1, 7, .one h₁⟩
  · exact .inl rfl
  · exact .inr ⟨2, 5, .two (Nat.not_lt.mp h₂) h₃⟩
  · exact .inr ⟨3, 4, .three (Nat.not_lt.mp h₃) h₄⟩
  · exact .inr ⟨4, 3, .four (Nat.not_lt.mp h₄) h₅⟩
  · exact .inl rfl

theorem isTail_iff (b : UInt8) : b &&& 0xC0 = 0x80 ↔ 128 ≤ b.toNat ∧ b.toNat < 192 := by
  have hall : ∀ n < 256, UInt8.ofNat n &&& 0xC0 = 0x80 ↔ 128 ≤ n ∧ n < 192 := by decide +kernel
  have hb := hall b.toNat b.toNat_lt
  rwa [UInt8.ofNat_toNat] at hb

theorem pushTail_eq (c : ℕ) (b : UInt8) :
    (c <<< 6) ||| (b.toNat &&& 0x3F) = c * 64 + b.toNat % 64 := by
  have hmask : b.toNat &&& 0x3F = b.toNat % 2 ^ 6 := Nat.and_two_pow_sub_one_eq_mod _ 6
  rw [hmask, ← Nat.shiftLeft_add_eq_or_of_lt (Nat.mod_lt _ (by decide)), Nat.shiftLeft_eq]

theorem surrogate_iff {c : ℕ} (h : c < 2 ^ 32) :
    c &&& 0xFFFFF800 = 0xD800 ↔ 0xD800 ≤ c ∧ c < 0xE000 := by
  have hsplit : (c / 2 ^ 11) <<< 11 ||| c % 2 ^ 11 = c := by
    rw [← Nat.shiftLeft_add_eq_or_of_lt (Nat.mod_lt _ (by decide)), Nat.shiftLeft_eq]
    omega
  have hhigh : (c / 2 ^ 11) <<< 11 &&& 0xFFFFF800 = (c / 2 ^ 11) <<< 11 := by
    have hones : 0xFFFFF800 = (2 ^ 21 - 1) <<< 11 := by decide
    rw [hones, ← Nat.shiftLeft_and_distrib, Nat.and_two_pow_sub_one_eq_mod,
      Nat.mod_eq_of_lt (by omega)]
  have hlow : c % 2 ^ 11 &&& 0xFFFFF800 = 0 := by
    have hzero : (2 ^ 11 - 1) &&& 0xFFFFF800 = 0 := by decide
    rw [← Nat.and_two_pow_sub_one_eq_mod, Nat.and_assoc, hzero, Nat.and_zero]
  have hmask : c &&& 0xFFFFF800 = c / 2 ^ 11 * 2 ^ 11 := by
    rw [← Nat.shiftLeft_eq, ← hhigh, ← Nat.or_zero ((c / 2 ^ 11) <<< 11 &&& 0xFFFFF800), ← hlow,
      ← Nat.and_or_distrib_right, hsplit]
  rw [hmask]
  omega

/-! ## One sequence -/

def tailValue (k : ℕ) (b : UInt8) (s : List UInt8) : ℕ :=
  s.foldl (fun c x => c * 64 + x.toNat % 64) (b.toNat % 2 ^ k)

theorem isSequence_iff {k : ℕ} : isSequence allowNull (2 ^ k - 1) (b :: s) = true ↔
    (∀ x ∈ s, 128 ≤ x.toNat ∧ x.toNat < 192) ∧ (allowNull = true ∨ ∀ x ∈ b :: s, x ≠ 0) ∧
      tailValue k b s ≤ 0x10FFFF ∧ ¬ (0xD800 ≤ tailValue k b s ∧ tailValue k b s < 0xE000) ∧
        isShortestForm allowNull (b :: s).length (tailValue k b s) = true := by
  have hvalue : sequenceValue (2 ^ k - 1) (b :: s) = tailValue k b s := by
    rw [sequenceValue, tailValue, Nat.and_two_pow_sub_one_eq_mod]
    exact congrArg (fun f => s.foldl f (b.toNat % 2 ^ k)) (funext₂ pushTail_eq)
  simp only [isSequence, hvalue, List.tail_cons, Bool.and_eq_true, List.all_eq_true,
    decide_eq_true_eq, isTail_iff, Bool.or_eq_true, and_assoc]
  refine and_congr_right fun _ => and_congr_right fun _ => and_congr_right fun hle => ?_
  rw [ne_eq, surrogate_iff (by omega)]

theorem exists_char (hmax : v ≤ 0x10FFFF) (hsurrogate : ¬ (0xD800 ≤ v ∧ v < 0xE000)) :
    ∃ c : Char, c.toNat = v := by
  have hvalid : v.isValidChar := by
    simp only [Nat.isValidChar]
    omega
  refine ⟨Char.ofNat v, ?_⟩
  rw [Char.ofNat, dif_pos hvalid]
  rfl

theorem toNat_utf8EncodeChar (c : Char) : (String.utf8EncodeChar c).map UInt8.toNat =
    if c.toNat < 0x80 then [c.toNat]
    else if c.toNat < 0x800 then [192 + c.toNat / 64, 128 + c.toNat % 64]
    else if c.toNat < 0x10000 then
      [224 + c.toNat / 4096, 128 + c.toNat / 64 % 64, 128 + c.toNat % 64]
    else [240 + c.toNat / 262144, 128 + c.toNat / 4096 % 64, 128 + c.toNat / 64 % 64,
      128 + c.toNat % 64] := by
  have hval : c.val.toNat = c.toNat := rfl
  have hmax : c.toNat < 0x110000 := by
    have hvalid := c.valid
    simp only [UInt32.isValidChar, Nat.isValidChar] at hvalid
    omega
  unfold String.utf8EncodeChar
  simp only [hval, Nat.lt_succ_iff.symm]
  split_ifs <;> simp only [List.map_cons, List.map_nil, UInt8.toNat_ofNat', List.cons.injEq,
    and_true] <;> omega

theorem eq_utf8EncodeChar (h : (String.utf8EncodeChar c).map UInt8.toNat = s.map UInt8.toNat) :
    String.utf8EncodeChar c = s :=
  List.map_injective_iff.mpr (fun _ _ hb => UInt8.toNat_inj.mp hb) h

theorem spells_of_isSequence {n k : ℕ} (hfirst : IsFirstByte b n k) (hlength : (b :: s).length = n)
    (h : isSequence allowNull (2 ^ k - 1) (b :: s) = true) :
    (∃ c, (allowNull = true ∨ c ≠ '\x00') ∧ String.utf8EncodeChar c = b :: s) ∨
      allowNull = true ∧ b :: s = [0xC0, 0x80] := by
  obtain ⟨htail, hnull, hmax, hsurrogate, hform⟩ := isSequence_iff.mp h
  obtain ⟨c, hc⟩ := exists_char hmax hsurrogate
  have hbytes := toNat_utf8EncodeChar c
  rw [hlength] at hform
  rw [hc] at hbytes
  have hzero : c = '\x00' → tailValue k b s = 0 := by
    rintro rfl
    exact hc.symm
  cases hfirst with
  | one hb =>
    obtain rfl := List.eq_nil_of_length_eq_zero (Nat.succ.inj hlength)
    have hvalue : tailValue 7 b [] = b.toNat := Nat.mod_eq_of_lt hb
    rw [hvalue] at hbytes hzero
    have hnull' : allowNull = true ∨ c ≠ '\x00' := by
      refine hnull.imp_right fun hall hnul => hall b List.mem_cons_self ?_
      exact UInt8.toNat_inj.mp (hzero hnul)
    refine .inl ⟨c, hnull', eq_utf8EncodeChar ?_⟩
    rw [hbytes, if_pos hb]
    rfl
  | two hb hb' =>
    obtain ⟨x, rfl⟩ := List.length_eq_one_iff.mp (Nat.succ.inj hlength)
    have hvalue : tailValue 5 b [x] = b.toNat % 32 * 64 + x.toNat % 64 := rfl
    have hx := htail x (List.mem_singleton_self x)
    rw [hvalue] at hbytes hzero hform
    simp only [isShortestForm, Bool.or_eq_true, Bool.and_eq_true, decide_eq_true_eq] at hform
    rcases hform with hform | ⟨hform, hallow⟩
    · refine .inl ⟨c, .inr fun hnul => ?_, eq_utf8EncodeChar ?_⟩
      · have hvalue := hzero hnul
        omega
      · rw [hbytes, if_neg (by omega), if_pos (by omega)]
        simp only [List.map_cons, List.map_nil, List.cons.injEq, and_true]
        omega
    · have hb₀ : b = 0xC0 := UInt8.toNat_inj.mp (show b.toNat = 192 by omega)
      have hx₀ : x = 0x80 := UInt8.toNat_inj.mp (show x.toNat = 128 by omega)
      exact .inr ⟨hallow, by rw [hb₀, hx₀]⟩
  | three hb hb' =>
    obtain ⟨x, y, rfl⟩ := List.length_eq_two.mp (Nat.succ.inj hlength)
    have hvalue : tailValue 4 b [x, y] = (b.toNat % 16 * 64 + x.toNat % 64) * 64 + y.toNat % 64 :=
      rfl
    have hx := htail x List.mem_cons_self
    have hy := htail y (List.mem_cons_of_mem x (List.mem_singleton_self y))
    rw [hvalue] at hbytes hzero hform
    simp only [isShortestForm, Bool.or_eq_true, decide_eq_true_eq] at hform
    refine .inl ⟨c, .inr fun hnul => ?_, eq_utf8EncodeChar ?_⟩
    · have hvalue := hzero hnul
      omega
    · rw [hbytes, if_neg (by omega), if_neg (by omega), if_pos (by omega)]
      simp only [List.map_cons, List.map_nil, List.cons.injEq, and_true]
      omega
  | four hb hb' =>
    obtain ⟨x, y, z, rfl⟩ := List.length_eq_three.mp (Nat.succ.inj hlength)
    have hvalue : tailValue 3 b [x, y, z] =
        ((b.toNat % 8 * 64 + x.toNat % 64) * 64 + y.toNat % 64) * 64 + z.toNat % 64 := rfl
    have hx := htail x List.mem_cons_self
    have hy := htail y (List.mem_cons_of_mem x List.mem_cons_self)
    have hz := htail z
      (List.mem_cons_of_mem x (List.mem_cons_of_mem y (List.mem_singleton_self z)))
    rw [hvalue] at hbytes hzero hform
    simp only [isShortestForm, Bool.or_eq_true, decide_eq_true_eq] at hform
    refine .inl ⟨c, .inr fun hnul => ?_, eq_utf8EncodeChar ?_⟩
    · have hvalue := hzero hnul
      omega
    · rw [hbytes, if_neg (by omega), if_neg (by omega), if_neg (by omega)]
      simp only [List.map_cons, List.map_nil, List.cons.injEq, and_true]
      omega

theorem isSequence_of_tailValue {k : ℕ} (htail : ∀ x ∈ s, 128 ≤ x.toNat ∧ x.toNat < 192)
    (hfirst : allowNull = true ∨ b ≠ 0) (hvalue : tailValue k b s = c.toNat)
    (hform : isShortestForm allowNull (b :: s).length c.toNat = true) :
    isSequence allowNull (2 ^ k - 1) (b :: s) = true := by
  have hvalid : c.toNat < 0xD800 ∨ 0xDFFF < c.toNat ∧ c.toNat < 0x110000 := c.valid
  have hzero : allowNull = true ∨ ∀ x ∈ b :: s, x ≠ 0 := by
    refine hfirst.imp_right fun hb x hx => ?_
    rcases List.mem_cons.mp hx with rfl | hx
    · exact hb
    · rintro rfl
      exact absurd (htail 0 hx).1 (by decide)
  rw [isSequence_iff, hvalue]
  exact ⟨htail, hzero, by omega, by omega, hform⟩

theorem ne_zero_of_le_toNat {n : ℕ} (h : n ≤ b.toNat) (hn : 0 < n) : b ≠ 0 := by
  rintro rfl
  exact Nat.not_lt.mpr h hn

theorem isSequence_utf8EncodeChar (c : Char) (hnull : allowNull = true ∨ c ≠ '\x00') :
    ∃ b s n k, String.utf8EncodeChar c = b :: s ∧ IsFirstByte b n k ∧ (b :: s).length = n ∧
      isSequence allowNull (2 ^ k - 1) (b :: s) = true := by
  have hvalid : c.toNat < 0xD800 ∨ 0xDFFF < c.toNat ∧ c.toNat < 0x110000 := c.valid
  have hbytes := toNat_utf8EncodeChar c
  generalize String.utf8EncodeChar c = bytes at hbytes
  split_ifs at hbytes with h₁ h₂ h₃
  · obtain ⟨b, rfl, hb⟩ := List.map_eq_singleton_iff.mp hbytes
    have hlow : tailValue 7 b [] = b.toNat := Nat.mod_eq_of_lt (hb ▸ h₁)
    have hvalue : tailValue 7 b [] = c.toNat := hlow.trans hb
    have hfirst : allowNull = true ∨ b ≠ 0 := by
      refine hnull.imp_right fun hne hzero => hne (Char.toNat_inj.mp ?_)
      rw [← hb, hzero]
      rfl
    refine ⟨b, [], 1, 7, rfl, .one (hb ▸ h₁), rfl, ?_⟩
    refine isSequence_of_tailValue (fun x hx => absurd hx List.not_mem_nil) hfirst hvalue ?_
    simp only [isShortestForm, List.length_cons, List.length_nil, decide_eq_true_eq]
    omega
  · obtain ⟨b, tail, rfl, hb, htail⟩ := List.map_eq_cons_iff.mp hbytes
    obtain ⟨x, rfl, hx⟩ := List.map_eq_singleton_iff.mp htail
    have hvalue : tailValue 5 b [x] = c.toNat := by
      show b.toNat % 32 * 64 + x.toNat % 64 = c.toNat
      omega
    have hall : ∀ z ∈ [x], 128 ≤ z.toNat ∧ z.toNat < 192 := by
      simp only [List.forall_mem_singleton]
      omega
    refine ⟨b, [x], 2, 5, rfl, .two (by omega) (by omega), rfl, ?_⟩
    refine isSequence_of_tailValue hall (.inr (ne_zero_of_le_toNat (n := 192) ?_ ?_)) hvalue ?_
    · omega
    · decide
    · simp only [isShortestForm, List.length_cons, List.length_nil, Bool.or_eq_true,
        decide_eq_true_eq]
      omega
  · obtain ⟨b, tail, rfl, hb, htail⟩ := List.map_eq_cons_iff.mp hbytes
    obtain ⟨x, tail, rfl, hx, htail⟩ := List.map_eq_cons_iff.mp htail
    obtain ⟨y, rfl, hy⟩ := List.map_eq_singleton_iff.mp htail
    have hvalue : tailValue 4 b [x, y] = c.toNat := by
      show (b.toNat % 16 * 64 + x.toNat % 64) * 64 + y.toNat % 64 = c.toNat
      omega
    have hall : ∀ z ∈ [x, y], 128 ≤ z.toNat ∧ z.toNat < 192 := by
      simp only [List.forall_mem_cons, List.not_mem_nil, false_imp_iff, implies_true, and_true]
      omega
    refine ⟨b, [x, y], 3, 4, rfl, .three (by omega) (by omega), rfl, ?_⟩
    refine isSequence_of_tailValue hall (.inr (ne_zero_of_le_toNat (n := 224) ?_ ?_)) hvalue ?_
    · omega
    · decide
    · simp only [isShortestForm, List.length_cons, List.length_nil, Bool.or_eq_true,
        decide_eq_true_eq]
      omega
  · obtain ⟨b, tail, rfl, hb, htail⟩ := List.map_eq_cons_iff.mp hbytes
    obtain ⟨x, tail, rfl, hx, htail⟩ := List.map_eq_cons_iff.mp htail
    obtain ⟨y, tail, rfl, hy, htail⟩ := List.map_eq_cons_iff.mp htail
    obtain ⟨z, rfl, hz⟩ := List.map_eq_singleton_iff.mp htail
    have hvalue : tailValue 3 b [x, y, z] = c.toNat := by
      show ((b.toNat % 8 * 64 + x.toNat % 64) * 64 + y.toNat % 64) * 64 + z.toNat % 64 = c.toNat
      omega
    have hall : ∀ w ∈ [x, y, z], 128 ≤ w.toNat ∧ w.toNat < 192 := by
      simp only [List.forall_mem_cons, List.not_mem_nil, false_imp_iff, implies_true, and_true]
      omega
    refine ⟨b, [x, y, z], 4, 3, rfl, .four (by omega) (by omega), rfl, ?_⟩
    refine isSequence_of_tailValue hall (.inr (ne_zero_of_le_toNat (n := 240) ?_ ?_)) hvalue ?_
    · omega
    · decide
    · simp only [isShortestForm, List.length_cons, List.length_nil, Bool.or_eq_true,
        decide_eq_true_eq]
      omega

/-! ## Whole texts -/

theorem validate_cons {n k : ℕ} (hfirst : IsFirstByte b n k) (s : List UInt8) :
    bsonUtf8Validate allowNull (b :: s) =
      (decide (n ≤ (b :: s).length) && isSequence allowNull (2 ^ k - 1) ((b :: s).take n) &&
        bsonUtf8Validate allowNull ((b :: s).drop n)) := by
  have hpos : n ≠ 0 := by cases hfirst <;> decide
  obtain ⟨m, rfl⟩ := Nat.exists_eq_succ_of_ne_zero hpos
  rw [bsonUtf8Validate, hfirst.getSequence_eq, if_neg hpos]
  by_cases hle : m + 1 ≤ (b :: s).length
  · rw [if_neg (Nat.not_lt.mpr hle), decide_eq_true hle, Bool.true_and]
    rfl
  · rw [if_pos (Nat.lt_of_not_le hle), decide_eq_false hle]
    rfl

theorem validate_append {n k : ℕ} (hfirst : IsFirstByte b n k) (hlength : (b :: s).length = n)
    (h : isSequence allowNull (2 ^ k - 1) (b :: s) = true) (rest : List UInt8) :
    bsonUtf8Validate allowNull (b :: s ++ rest) = bsonUtf8Validate allowNull rest := by
  subst hlength
  rw [List.cons_append, validate_cons hfirst, ← List.cons_append, List.take_left, List.drop_left,
    h, decide_eq_true (List.length_append ▸ Nat.le_add_right _ _)]
  rfl

/-- The texts that are accepted are those that spell characters. -/
theorem validate_iff_spells (allowNull : Bool) (s : List UInt8) :
    bsonUtf8Validate allowNull s = true ↔ ∃ cs, Utf8Spells allowNull s cs := by
  constructor
  · intro h
    induction hn : s.length using Nat.strongRecOn generalizing s with
    | ind length ih =>
      cases s with
      | nil => exact ⟨[], .nil⟩
      | cons b s =>
        rcases isFirstByte_or b with hnone | ⟨n, k, hfirst⟩
        · rw [bsonUtf8Validate, hnone] at h
          exact absurd h Bool.false_ne_true
        · rw [validate_cons hfirst, Bool.and_eq_true, Bool.and_eq_true, decide_eq_true_eq] at h
          obtain ⟨⟨hle, hsequence⟩, hrest⟩ := h
          obtain ⟨m, rfl⟩ : ∃ m, n = m + 1 :=
            Nat.exists_eq_succ_of_ne_zero (by cases hfirst <;> decide)
          have hshorter : ((b :: s).drop (m + 1)).length < length := by
            rw [← hn, List.length_drop]
            omega
          obtain ⟨cs, hspells⟩ := ih _ hshorter _ hrest rfl
          have htake : (b :: s.take m).length = m + 1 := List.length_take_of_le hle
          rw [← List.take_append_drop (m + 1) (b :: s)]
          rcases spells_of_isSequence hfirst htake hsequence with ⟨c, hnull, hc⟩ | ⟨hallow, hc⟩
          · rw [List.take_succ_cons, ← hc]
            exact ⟨c :: cs, .char c hnull hspells⟩
          · rw [List.take_succ_cons, hc]
            exact ⟨'\x00' :: cs, .null hallow hspells⟩
  · rintro ⟨cs, hspells⟩
    induction hspells with
    | nil => rw [bsonUtf8Validate]
    | char c hnull hspells ih =>
      obtain ⟨b, tail, n, k, hbytes, hfirst, hlength, hsequence⟩ :=
        isSequence_utf8EncodeChar c hnull
      rw [hbytes, validate_append hfirst hlength hsequence, ih]
    | null hnull hspells ih =>
      have hsequence : isSequence allowNull (2 ^ 5 - 1) [0xC0, 0x80] = true := by
        rw [hnull]
        decide
      have hfirst : IsFirstByte 0xC0 2 5 := .two (by decide) (by decide)
      exact (validate_append hfirst rfl hsequence _).trans ih

/-! ## The characters of a text -/

/-- A text in which every zero has one byte. -/
def joinNuls : List UInt8 → List UInt8
  | [] => []
  | 0xC0 :: 0x80 :: s => 0 :: joinNuls s
  | b :: s => b :: joinNuls s

/-- The characters of a text, among which there are zeros only where these are allowed. -/
def textChars (allowNull : Bool) (s : List UInt8) : Option (List Char) :=
  if allowNull then utf8Chars (joinNuls s) else (utf8Chars s).filter fun cs => !cs.contains '\x00'

theorem joinNuls_cons (hb : b.toNat ≠ 0xC0) (s : List UInt8) :
    joinNuls (b :: s) = b :: joinNuls s := by
  rw [joinNuls]
  rintro s' rfl
  exact absurd rfl hb

theorem joinNuls_append (h : ∀ b ∈ seq, b.toNat ≠ 0xC0) (s : List UInt8) :
    joinNuls (seq ++ s) = seq ++ joinNuls s := by
  induction seq with
  | nil => rfl
  | cons b seq ih =>
    rw [List.forall_mem_cons] at h
    rw [List.cons_append, joinNuls_cons h.1, ih h.2, List.cons_append]

theorem ne_of_mem_utf8EncodeChar (hb : b ∈ String.utf8EncodeChar c) : b.toNat ≠ 0xC0 := by
  by_cases hc : c.toNat < 128
  · rw [utf8EncodeChar_of_lt hc, List.mem_singleton] at hb
    subst hb
    rw [UInt8.toNat_ofNat']
    omega
  · exact (mem_utf8EncodeChar (Nat.le_of_not_lt hc) hb).2

theorem joinNuls_eq_cons {rest : List UInt8} (hb : b ≠ 0) (h : joinNuls s = b :: rest) :
    ∃ s', s = b :: s' ∧ joinNuls s' = rest := by
  fun_cases joinNuls s with
  | case1 => cases h
  | case2 s' =>
    simp only [joinNuls, List.cons.injEq] at h
    exact absurd h.1.symm hb
  | case3 b' s' hne =>
    rw [joinNuls.eq_3 _ _ hne] at h
    obtain ⟨rfl, htail⟩ := List.cons.inj h
    exact ⟨s', rfl, htail⟩

theorem joinNuls_eq_append {rest : List UInt8} (hseq : 0 ∉ seq) (h : joinNuls s = seq ++ rest) :
    ∃ s', s = seq ++ s' ∧ joinNuls s' = rest := by
  induction seq generalizing s with
  | nil => exact ⟨s, rfl, h⟩
  | cons b seq ih =>
    rw [List.mem_cons, not_or] at hseq
    obtain ⟨s', rfl, hs'⟩ := joinNuls_eq_cons (Ne.symm hseq.1) h
    obtain ⟨s'', rfl, hs''⟩ := ih hseq.2 hs'
    exact ⟨s'', rfl, hs''⟩

theorem zero_mem_utf8EncodeChar (h : 0 ∈ String.utf8EncodeChar c) : c = '\x00' := by
  by_cases hc : c.toNat < 128
  · rw [utf8EncodeChar_of_lt hc, List.mem_singleton] at h
    have hnat := congrArg UInt8.toNat h
    rw [UInt8.toNat_ofNat'] at hnat
    exact Char.toNat_inj.mp (show c.toNat = 0 by simp only [UInt8.toNat_zero] at hnat; omega)
  · exact absurd (mem_utf8EncodeChar (Nat.le_of_not_lt hc) h).1 (by decide)

theorem spells_of_joinNuls {cs : List Char} (h : joinNuls s = utf8Bytes cs) :
    Utf8Spells true s cs := by
  induction cs generalizing s with
  | nil =>
    fun_cases joinNuls s with
    | case1 => exact .nil
    | case2 s' => cases h
    | case3 b s' hne =>
      rw [joinNuls.eq_3 _ _ hne] at h
      cases h
  | cons c cs ih =>
    rw [utf8Bytes_cons] at h
    by_cases hzero : 0 ∈ String.utf8EncodeChar c
    · obtain rfl := zero_mem_utf8EncodeChar hzero
      fun_cases joinNuls s with
      | case1 => cases h
      | case2 s' => exact .null rfl (ih (List.cons.inj h).2)
      | case3 b s' hne =>
        rw [joinNuls.eq_3 _ _ hne] at h
        obtain ⟨rfl, hs'⟩ := List.cons.inj h
        exact .char '\x00' (.inl rfl) (ih hs')
    · obtain ⟨s', rfl, hs'⟩ := joinNuls_eq_append hzero h
      exact .char c (.inl rfl) (ih hs')

theorem Utf8Spells.utf8Chars {cs : List Char} (h : Utf8Spells false s cs) :
    utf8Chars s = some cs ∧ '\x00' ∉ cs := by
  rw [utf8Chars_eq_some_iff]
  induction h with
  | nil => exact ⟨rfl, List.not_mem_nil⟩
  | char c hnull _ ih =>
    obtain ⟨hbytes, hmem⟩ := ih
    have hne := hnull.resolve_left Bool.false_ne_true
    rw [utf8Bytes_cons, hbytes, List.mem_cons, not_or]
    exact ⟨rfl, hne.symm, hmem⟩
  | null hnull => exact absurd hnull Bool.false_ne_true

theorem spells_utf8Bytes {cs : List Char} (hnull : allowNull = true ∨ '\x00' ∉ cs) :
    Utf8Spells allowNull (utf8Bytes cs) cs := by
  induction cs with
  | nil => exact .nil
  | cons c cs ih =>
    rw [List.mem_cons, not_or] at hnull
    exact .char c (hnull.imp_right fun h => Ne.symm h.1) (ih (hnull.imp_right And.right))

theorem Utf8Spells.joinNuls_eq {cs : List Char} (h : Utf8Spells allowNull s cs) :
    joinNuls s = utf8Bytes cs := by
  induction h with
  | nil => rfl
  | char c _ _ ih =>
    rw [joinNuls_append fun b hb => ne_of_mem_utf8EncodeChar hb, ih, utf8Bytes_cons]
  | null _ _ ih =>
    rw [joinNuls, ih]
    rfl

theorem textChars_eq_some_iff {cs : List Char} :
    textChars allowNull s = some cs ↔ Utf8Spells allowNull s cs := by
  cases allowNull with
  | true =>
    rw [textChars, if_pos rfl, utf8Chars_eq_some_iff]
    exact ⟨fun h => spells_of_joinNuls h.symm, fun h => h.joinNuls_eq.symm⟩
  | false =>
    rw [textChars, if_neg Bool.false_ne_true, Option.filter_eq_some_iff]
    simp only [Bool.not_eq_true', List.contains_eq_mem, decide_eq_false_iff_not]
    refine ⟨?_, fun h => h.utf8Chars⟩
    rintro ⟨hchars, hnul⟩
    obtain rfl := utf8Chars_eq_some_iff.mp hchars
    exact spells_utf8Bytes (.inr hnul)

/-- The validation accepts the texts that have characters. -/
theorem bsonUtf8Validate_eq (allowNull : Bool) (s : List UInt8) :
    bsonUtf8Validate allowNull s = (textChars allowNull s).isSome := by
  rw [Bool.eq_iff_iff, validate_iff_spells, Option.isSome_iff_exists]
  exact exists_congr fun cs => textChars_eq_some_iff.symm

end Mongolite
