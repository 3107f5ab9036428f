import Mongolite.Library.Frames
import Mongolite.Library.LittleEndian

/-! # Documents as byte strings

A `bson_t` is a byte string whose length prefix is its own length and whose
last byte is zero; what stands between is not looked at. Documents that follow
one another in a stream form a framing.
-/

namespace Mongolite

/-- What `bson_init_static` checks of a byte string. -/
structure WellFramed (bytes : List UInt8) : Prop where
  five_le : 5 ≤ bytes.length
  lt_two_pow : bytes.length < 2 ^ 31
  header : readU32le bytes = bytes.length
  last : bytes.getLast? = some 0

structure Bson where
  bytes : List UInt8
  framed : WellFramed bytes
  deriving DecidableEq

def bsonInitStatic (data : List UInt8) : Option Bson :=
  -- the largest size is `BSON_MAX_SIZE`, `2 ^ 31 - 1`
  if hsize : data.length < 5 ∨ 2 ^ 31 - 1 < data.length then none
  else if hheader : readU32le data ≠ data.length then none
  else if hlast : data.getLast? ≠ some 0 then none
  else some ⟨data, by omega, by omega, by omega, not_not.mp hlast⟩

@[simp] theorem bsonInitStatic_bytes (d : Bson) : bsonInitStatic d.bytes = some d := by
  have := d.framed.five_le
  have := d.framed.lt_two_pow
  have hsize : ¬ (d.bytes.length < 5 ∨ 2 ^ 31 - 1 < d.bytes.length) := by omega
  rw [bsonInitStatic, dif_neg hsize, dif_neg (not_not.mpr d.framed.header),
    dif_neg (not_not.mpr d.framed.last)]

theorem bytes_of_bsonInitStatic {data : List UInt8} {d : Bson}
    (h : bsonInitStatic data = some d) : d.bytes = data := by
  unfold bsonInitStatic at h
  split_ifs at h
  cases h
  rfl

theorem Bson.readI32le_append (d : Bson) (cs : List UInt8) :
    readI32le (d.bytes ++ cs) = d.bytes.length := by
  have hfive := d.framed.five_le
  rw [Mongolite.readI32le_append (by omega), readI32le, d.framed.header,
    toInt32_of_lt d.framed.lt_two_pow]

def bsonFront (bs : List UInt8) : Front Bson :=
  if bs = [] then .clean
  else if bs.length < 4 then .cut
  else if readI32le bs < 5 then .bad
  else if (bs.length : ℤ) < readI32le bs then .cut
  else (bsonInitStatic (bs.take (readI32le bs).toNat)).elim .bad .frame

theorem bsonFront_append (d : Bson) (cs : List UInt8) : bsonFront (d.bytes ++ cs) = .frame d := by
  have hfive := d.framed.five_le
  have hne : d.bytes ++ cs ≠ [] := by
    intro h
    simp [(List.append_eq_nil_iff.mp h).1] at hfive
  have hlen : (d.bytes ++ cs).length = d.bytes.length + cs.length := List.length_append
  rw [bsonFront, if_neg hne, if_neg (by omega), d.readI32le_append, if_neg (by omega),
    if_neg (by omega)]
  simp

theorem prefix_of_bsonFront {bs : List UInt8} {d : Bson} (h : bsonFront bs = .frame d) :
    d.bytes <+: bs := by
  unfold bsonFront at h
  split_ifs at h
  cases hinit : bsonInitStatic (bs.take (readI32le bs).toNat) with
  | none => simp [hinit] at h
  | some d' =>
    rw [hinit] at h
    cases h
    rw [bytes_of_bsonInitStatic hinit]
    exact List.take_prefix _ _

/-- Documents one after the other, each found by its length prefix. -/
def bsonFraming : Framing UInt8 Bson where
  front := bsonFront
  bytes := Bson.bytes
  bytes_ne_nil d h := by
    have := d.framed.five_le
    simp [h] at this
  front_append := bsonFront_append
  prefix_of_frame _ _ := prefix_of_bsonFront
  front_eq_clean bs := by
    unfold bsonFront
    constructor
    · intro h
      split_ifs at h with hnil
      · exact hnil
      · cases hinit : bsonInitStatic (bs.take (readI32le bs).toNat) <;> simp [hinit] at h
    · rintro rfl
      rfl

theorem frames_flatMap_bytes (docs : List Bson) :
    bsonFraming.frames (docs.flatMap Bson.bytes) = docs := by
  have h := bsonFraming.frames_flatMap_append docs []
  rwa [List.append_nil, Framing.frames_nil, List.append_nil] at h

theorem rest_flatMap_bytes (docs : List Bson) :
    bsonFraming.rest (docs.flatMap Bson.bytes) = [] := by
  have h := bsonFraming.rest_flatMap_append docs []
  rwa [List.append_nil, Framing.rest_nil] at h

end Mongolite
