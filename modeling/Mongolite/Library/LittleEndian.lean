import Mathlib.Algebra.Ring.Int.Defs
import Mathlib.Algebra.Ring.Nat
import Mathlib.Data.List.Basic

/-! # Little-endian numbers

Naturals as little-endian bytes of a fixed width, and the signed reading of a
machine word.
-/

namespace Mongolite

/-- The number whose little-endian digits to base 256 are the bytes. -/
def ofBytes : List UInt8 → ℕ
  | [] => 0
  | b :: bs => b.toNat + 256 * ofBytes bs

/-- The last `w` little-endian digits of a number. -/
def toBytes : ℕ → ℕ → List UInt8
  | 0, _ => []
  | w + 1, n => UInt8.ofNat n :: toBytes w (n / 256)

/-- The value of the low 32 bits as a signed number. -/
def toInt32 (n : ℕ) : ℤ := (BitVec.ofNat 32 n).toInt

def readU32le (bs : List UInt8) : ℕ := ofBytes (bs.take 4)

def readI32le (bs : List UInt8) : ℤ := toInt32 (readU32le bs)

@[simp] theorem length_toBytes (w n : ℕ) : (toBytes w n).length = w := by
  induction w generalizing n with
  | zero => rfl
  | succ w ih => simp [toBytes, ih]

theorem ofBytes_lt (bs : List UInt8) : ofBytes bs < 256 ^ bs.length := by
  induction bs with
  | nil => simp [ofBytes]
  | cons b bs ih =>
    have hb : b.toNat < 256 := b.toNat_lt
    rw [ofBytes, List.length_cons, Nat.pow_succ]
    omega

theorem ofBytes_toBytes {w n : ℕ} (h : n < 256 ^ w) : ofBytes (toBytes w n) = n := by
  induction w generalizing n with
  | zero => simp_all [toBytes, ofBytes]
  | succ w ih =>
    have hdiv : n / 256 < 256 ^ w := by
      rw [Nat.pow_succ] at h
      omega
    simp only [toBytes, ofBytes, ih hdiv, UInt8.toNat_ofNat']
    omega

theorem toBytes_ofBytes (bs : List UInt8) : toBytes bs.length (ofBytes bs) = bs := by
  induction bs with
  | nil => rfl
  | cons b bs ih =>
    have hb : b.toNat < 256 := b.toNat_lt
    have hlow : UInt8.ofNat (b.toNat + 256 * ofBytes bs) = b := by
      apply UInt8.toNat_inj.mp
      rw [UInt8.toNat_ofNat']
      omega
    have hhigh : (b.toNat + 256 * ofBytes bs) / 256 = ofBytes bs := by omega
    rw [List.length_cons, ofBytes, toBytes, hlow, hhigh, ih]

theorem toInt32_of_lt {n : ℕ} (h : n < 2 ^ 31) : toInt32 n = n := by
  rw [toInt32, BitVec.toInt_ofNat']
  exact Int.bmod_eq_of_le (by omega) (by omega)

theorem toInt32_neg {n : ℕ} (h : 2 ^ 31 ≤ n) (hlt : n < 2 ^ 32) : toInt32 n < 0 := by
  rw [toInt32, BitVec.toInt_ofNat', Int.bmod_eq_emod, if_pos (by omega)]
  omega

theorem readU32le_of_readI32le {bs : List UInt8} {m : ℕ} (h : readI32le bs = m) :
    readU32le bs = m := by
  have hlt : readU32le bs < 2 ^ 32 := by
    have hbound := ofBytes_lt (bs.take 4)
    have hlen : (bs.take 4).length ≤ 4 := List.length_take_le 4 bs
    exact lt_of_lt_of_le hbound (Nat.pow_le_pow_right (by decide) hlen)
  rw [readI32le] at h
  rcases Nat.lt_or_ge (readU32le bs) (2 ^ 31) with hsmall | hlarge
  · rw [toInt32_of_lt hsmall] at h
    exact Int.ofNat_inj.mp h
  · have hneg := toInt32_neg hlarge hlt
    omega

theorem toInt32_two_pow_nonpos {k : ℕ} (h : 31 ≤ k) : toInt32 (2 ^ k) ≤ 0 := by
  rcases Nat.eq_or_lt_of_le h with rfl | hlt
  · decide
  · obtain ⟨j, rfl⟩ := Nat.exists_eq_add_of_le hlt
    have hmod : 2 ^ (Nat.succ 31 + j) % 2 ^ 32 = 0 := by
      rw [Nat.pow_add]
      exact Nat.mul_mod_right _ _
    rw [toInt32, BitVec.toInt_ofNat', Int.bmod_eq_emod, if_neg (by omega)]
    omega

theorem readU32le_append {bs cs : List UInt8} (h : 4 ≤ bs.length) :
    readU32le (bs ++ cs) = readU32le bs := by
  rw [readU32le, List.take_append_of_le_length h, readU32le]

theorem readI32le_append {bs cs : List UInt8} (h : 4 ≤ bs.length) :
    readI32le (bs ++ cs) = readI32le bs := by
  rw [readI32le, readU32le_append h, readI32le]

theorem toBytes_readU32le {bs : List UInt8} (h : 4 ≤ bs.length) :
    toBytes 4 (readU32le bs) = bs.take 4 := by
  have hfour := toBytes_ofBytes (bs.take 4)
  rwa [List.length_take, Nat.min_eq_left h] at hfour

theorem readU32le_toBytes {n : ℕ} (cs : List UInt8) (h : n < 2 ^ 32) :
    readU32le (toBytes 4 n ++ cs) = n := by
  rw [readU32le_append (by simp), readU32le, List.take_of_length_le (by simp),
    ofBytes_toBytes (by simpa using h)]

theorem readU32le_lt (bs : List UInt8) : readU32le bs < 2 ^ 32 := by
  have hlt := ofBytes_lt (bs.take 4)
  have hlen : (bs.take 4).length ≤ 4 := List.length_take_le 4 bs
  exact Nat.lt_of_lt_of_le hlt (Nat.pow_le_pow_right (by decide) hlen)

end Mongolite
