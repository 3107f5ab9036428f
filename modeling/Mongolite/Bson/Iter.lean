import Mathlib.Data.List.TakeWhile
import Mongolite.Bson.Document

/-! # The iterator over the elements of a document

`bson_iter_next` moves to the next element: a type byte, a key that ends in a
zero byte, and the bytes of the value, whose extent depends on the type. It
returns `false` at the end of the document and wherever an element is corrupt.
-/

namespace Mongolite

inductive BsonType
  | eod
  | double
  | utf8
  | document
  | array
  | binary
  | undefined
  | oid
  | bool
  | dateTime
  | null
  | regex
  | dbPointer
  | code
  | symbol
  | codeWScope
  | int32
  | timestamp
  | int64
  | decimal128
  | maxKey
  | minKey
  deriving DecidableEq, Repr

def BsonType.byte : BsonType → UInt8
  | eod => 0x00
  | double => 0x01
  | utf8 => 0x02
  | document => 0x03
  | array => 0x04
  | binary => 0x05
  | undefined => 0x06
  | oid => 0x07
  | bool => 0x08
  | dateTime => 0x09
  | null => 0x0A
  | regex => 0x0B
  | dbPointer => 0x0C
  | code => 0x0D
  | symbol => 0x0E
  | codeWScope => 0x0F
  | int32 => 0x10
  | timestamp => 0x11
  | int64 => 0x12
  | decimal128 => 0x13
  | maxKey => 0x7F
  | minKey => 0xFF

def BsonType.all : List BsonType :=
  [eod, double, utf8, document, array, binary, undefined, oid, bool, dateTime, null, regex,
    dbPointer, code, symbol, codeWScope, int32, timestamp, int64, decimal128, maxKey, minKey]

/-- The type that a byte stands for; `none` is an unsupported type. -/
def bsonTypeOf (b : UInt8) : Option BsonType := BsonType.all.find? fun t => t.byte == b

def bsonSubtypeBinaryDeprecated : UInt8 := 0x02

@[simp] theorem bsonTypeOf_byte (t : BsonType) : bsonTypeOf t.byte = some t := by
  cases t <;> rfl

theorem byte_of_bsonTypeOf {b : UInt8} {t : BsonType} (h : bsonTypeOf b = some t) :
    b = t.byte := by
  have := List.find?_some h
  exact (eq_of_beq this).symm

def byteAt (data : List UInt8) (i : ℕ) : UInt8 := data.getD i 0

/-- A C string: the bytes up to the first zero byte. -/
def cString (bs : List UInt8) : List UInt8 := bs.takeWhile (· ≠ 0)

theorem not_mem_cString (bs : List UInt8) : 0 ∉ cString bs := by
  intro h
  simpa using List.mem_takeWhile_imp h

/-- The position of the first zero byte from position `o` on. -/
def findZero (data : List UInt8) (o : ℕ) : Option ℕ :=
  ((data.drop o).findIdx? (· == 0)).map (o + ·)

structure Fields where
  d2 : ℕ
  d3 : ℕ
  d4 : ℕ
  nextOff : ℕ
  deriving DecidableEq, Repr

/-- The `switch` of `_bson_iter_next_internal` for a value that starts at `o`, in an element that
starts at `start`: its fields, or where the error is. Where a length is subtracted from `len`, it
is at most `len`. -/
def elementFields (data : List UInt8) (start o : ℕ) : Option BsonType → Except ℕ Fields
  | some .dateTime | some .double | some .int64 | some .timestamp => .ok ⟨0, 0, 0, o + 8⟩
  | some .code | some .symbol | some .utf8 =>
    let len := data.length
    if o + 4 ≥ len then .error o
    else
      let l := readU32le (data.drop o)
      if l > len - (o + 4) then .error o
      -- make sure the string length includes the NUL byte
      else if l = 0 ∨ o + 4 + l ≥ len then .error o
      -- make sure the last byte is a NUL byte
      else if byteAt data (o + 4 + l - 1) ≠ 0 then .error (o + 4 + l - 1)
      else .ok ⟨o + 4, 0, 0, o + 4 + l⟩
  | some .binary =>
    let len := data.length
    if o ≥ len - 4 then .error o
    else
      let l := readU32le (data.drop o)
      if l ≥ len - o - 4 then .error o
      else if byteAt data (o + 4) = bsonSubtypeBinaryDeprecated then
        if l < 4 then .error o
        -- subtype 2 has a redundant length header in the data
        else if readI32le (data.drop (o + 5)) ≠ (l : ℤ) - 4 then .error (o + 5)
        else .ok ⟨o + 4, o + 5, 0, o + 5 + l⟩
      else .ok ⟨o + 4, o + 5, 0, o + 5 + l⟩
  | some .array | some .document =>
    let len := data.length
    if o ≥ len - 4 then .error o
    else
      let l := readU32le (data.drop o)
      if l > len ∨ l > len - o then .error o else .ok ⟨0, 0, 0, o + l⟩
  | some .oid => .ok ⟨0, 0, 0, o + 12⟩
  | some .bool =>
    if o ≥ data.length then .error o
    else if byteAt data o ≠ 0 ∧ byteAt data o ≠ 1 then .error o
    else .ok ⟨0, 0, 0, o + 1⟩
  | some .regex =>
    match findZero data o with
    | none => .error start
    | some eor =>
      match findZero data (eor + 1) with
      | none => .error start
      | some eoo => .ok ⟨eor + 1, 0, 0, eoo + 1⟩
  | some .dbPointer =>
    let len := data.length
    if o ≥ len - 4 then .error o
    else
      let l := readU32le (data.drop o)
      -- l counts '\0' but not 4 bytes for itself
      if l = 0 ∨ l > len - o - 4 then .error o
      -- not null terminated
      else if byteAt data (o + l + 3) ≠ 0 then .error (o + l + 3)
      else .ok ⟨o + 4, o + 4 + l, 0, o + 4 + l + 12⟩
  | some .codeWScope =>
    let len := data.length
    if len < 19 ∨ o ≥ len - 14 then .error o
    else
      let l1 := readU32le (data.drop o)
      if l1 < 14 ∨ l1 ≥ len - o then .error o
      else if o + l1 ≥ len then .error o
      else
        let l2 := readU32le (data.drop (o + 4))
        if l2 = 0 ∨ l2 ≥ len - o - 4 - 4 then .error o
        else if o + 4 + 4 + l2 + 4 ≥ o + l1 then .error (o + 4)
        else
          let doclen := readU32le (data.drop (o + 4 + 4 + l2))
          -- a sum of 32-bit words
          if (o + 4 + 4 + l2 + doclen) % 2 ^ 32 ≠ o + l1 then .error (o + 4 + 4 + l2)
          else .ok ⟨o + 4, o + 8, o + 4 + 4 + l2, o + l1⟩
  | some .int32 => .ok ⟨0, 0, 0, o + 4⟩
  | some .decimal128 => .ok ⟨0, 0, 0, o + 16⟩
  | some .maxKey | some .minKey | some .null | some .undefined => .ok ⟨0, 0, 0, o⟩
  | some .eod | none => .error o

/-- `bson_iter_t`: the bytes iterated over (`none` is `NULL`), the positions of the current
element, of its type, key and value, of the next element, and of an error. -/
structure BsonIter where
  raw : Option (List UInt8)
  off : ℕ
  type : ℕ
  key : ℕ
  d1 : ℕ
  d2 : ℕ
  d3 : ℕ
  d4 : ℕ
  nextOff : ℕ
  errOff : ℕ

def BsonIter.markInvalid (it : BsonIter) : BsonIter := { it with raw := none, nextOff := 0 }

def bsonIterNext (it : BsonIter) : Bool × BsonIter :=
  match it.raw with
  | none => (false, it)
  | some data =>
    let cur : BsonIter := { it with
      off := it.nextOff, type := it.nextOff, key := it.nextOff + 1, d1 := 0, d2 := 0, d3 := 0,
      d4 := 0 }
    match findZero data (it.nextOff + 1) with
    | none => (false, cur.markInvalid)
    | some z =>
      match elementFields data it.nextOff (z + 1) (bsonTypeOf (byteAt data it.nextOff)) with
      | .error e => (false, { cur with d1 := z + 1, errOff := e }.markInvalid)
      | .ok f =>
        -- the next element would overflow the buffer
        if f.nextOff ≥ data.length then
          (false, { cur with d1 := z + 1, errOff := z + 1 }.markInvalid)
        else
          (true, { cur with
            d1 := z + 1, d2 := f.d2, d3 := f.d3, d4 := f.d4, nextOff := f.nextOff, errOff := 0 })

def iterOver (raw : List UInt8) : BsonIter := ⟨some raw, 0, 0, 0, 0, 0, 0, 0, 4, 0⟩

def bsonIterInit (b : Bson) : BsonIter := iterOver b.bytes

def BsonIter.data (it : BsonIter) : List UInt8 := it.raw.getD []

def bsonIterType (it : BsonIter) : Option BsonType := bsonTypeOf (byteAt it.data it.type)

def bsonIterKey (it : BsonIter) : List UInt8 := cString (it.data.drop it.key)

/-- `bson_iter_recurse`: the iterator over an embedded document or array. -/
def bsonIterRecurse (it : BsonIter) : BsonIter :=
  iterOver ((it.data.drop it.d1).take (readU32le (it.data.drop it.d1)))

end Mongolite
