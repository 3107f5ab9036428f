import Mathlib.Data.List.Basic

/-! # Characters in UTF-8

Bytes stand for at most one sequence of characters. A character below 128 is its
own byte; the bytes of the others are all above that, and none of them is the
byte C0, which could only begin a second form of a character below 64.
-/

namespace Mongolite

variable {bs bs' : List UInt8} {cs : List Char} {c : Char} {b : UInt8}

def utf8Bytes (cs : List Char) : List UInt8 := cs.flatMap String.utf8EncodeChar

def utf8Chars (bs : List UInt8) : Option (List Char) :=
  bs.toByteArray.utf8Decode?.map Array.toList

@[simp] theorem utf8Bytes_nil : utf8Bytes [] = [] := rfl

@[simp] theorem utf8Bytes_cons (c : Char) (cs : List Char) :
    utf8Bytes (c :: cs) = String.utf8EncodeChar c ++ utf8Bytes cs := List.flatMap_cons

@[simp] theorem utf8Bytes_append (cs cs' : List Char) :
    utf8Bytes (cs ++ cs') = utf8Bytes cs ++ utf8Bytes cs' := List.flatMap_append

@[simp] theorem utf8Chars_utf8Bytes (cs : List Char) : utf8Chars (utf8Bytes cs) = some cs := by
  have hencode : (utf8Bytes cs).toByteArray = cs.utf8Encode := rfl
  rw [utf8Chars, hencode, List.utf8Decode?_utf8Encode]
  rfl

theorem utf8Chars_eq_some_iff : utf8Chars bs = some cs ↔ utf8Bytes cs = bs := by
  constructor
  · intro h
    obtain ⟨chars, hdecode, rfl⟩ := Option.map_eq_some_iff.mp h
    have hsome : bs.toByteArray.utf8Decode?.isSome := by rw [hdecode]; rfl
    have hencode := ByteArray.utf8Encode_get_utf8Decode? (b := bs.toByteArray) (h := hsome)
    simp only [hdecode, Option.get_some] at hencode
    have hbytes : (utf8Bytes chars.toList).toByteArray = bs.toByteArray := hencode
    rw [← List.toList_data_toByteArray (l := bs), ← hbytes, List.toList_data_toByteArray]
  · rintro rfl
    exact utf8Chars_utf8Bytes cs

theorem eq_of_utf8Chars (h : utf8Chars bs = some cs) (h' : utf8Chars bs' = some cs) : bs = bs' :=
  (utf8Chars_eq_some_iff.mp h).symm.trans (utf8Chars_eq_some_iff.mp h')

theorem utf8EncodeChar_of_lt (h : c.toNat < 128) :
    String.utf8EncodeChar c = [UInt8.ofNat c.toNat] :=
  if_pos (Nat.le_of_lt_succ h)

theorem mem_utf8EncodeChar (hc : 128 ≤ c.toNat) (hb : b ∈ String.utf8EncodeChar c) :
    128 ≤ b.toNat ∧ b.toNat ≠ 0xC0 := by
  have hval : c.val.toNat = c.toNat := rfl
  have hmax : c.toNat < 0x110000 := by
    have hvalid := c.valid
    simp only [UInt32.isValidChar, Nat.isValidChar] at hvalid
    omega
  unfold String.utf8EncodeChar at hb
  simp only [hval] at hb
  rw [if_neg (by omega)] at hb
  split_ifs at hb with htwo hthree
  all_goals simp only [List.mem_cons, List.not_mem_nil, or_false] at hb
  · rcases hb with rfl | rfl <;>
    · rw [UInt8.toNat_ofNat']
      omega
  · rcases hb with rfl | rfl | rfl <;>
    · rw [UInt8.toNat_ofNat']
      omega
  · rcases hb with rfl | rfl | rfl | rfl <;>
    · rw [UInt8.toNat_ofNat']
      omega

theorem utf8Chars_ascii (h : ∀ b ∈ bs, b.toNat < 128) :
    utf8Chars bs = some (bs.map fun b => Char.ofNat b.toNat) := by
  rw [utf8Chars_eq_some_iff]
  induction bs with
  | nil => rfl
  | cons b bs ih =>
    rw [List.forall_mem_cons] at h
    have hb : (Char.ofNat b.toNat).toNat = b.toNat := by
      have hvalid : b.toNat.isValidChar := .inl (by omega)
      rw [Char.ofNat, dif_pos hvalid]
      rfl
    rw [List.map_cons, utf8Bytes_cons, ih h.2, utf8EncodeChar_of_lt (hb.symm ▸ h.1), hb,
      UInt8.ofNat_toNat, List.singleton_append]

theorem length_utf8Bytes (cs : List Char) :
    cs.length ≤ (utf8Bytes cs).length ∧
      ((utf8Bytes cs).length = cs.length → ∀ c ∈ cs, c.toNat < 128) := by
  induction cs with
  | nil => exact ⟨Nat.le_refl 0, fun _ => nofun⟩
  | cons c cs ih =>
    obtain ⟨hle, hascii⟩ := ih
    have hsize := c.utf8Size_pos
    rw [utf8Bytes_cons, List.length_append, String.length_utf8EncodeChar, List.length_cons]
    refine ⟨by omega, fun heq => List.forall_mem_cons.mpr ⟨?_, hascii (by omega)⟩⟩
    have hone : c.val ≤ 127 := Char.utf8Size_eq_one_iff.mp (by omega)
    exact Nat.lt_succ_of_le (UInt32.le_iff_toNat_le.mp hone)

end Mongolite
