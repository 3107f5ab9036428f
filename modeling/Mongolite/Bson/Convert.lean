import Mongolite.Bson.Iter
import Mongolite.Library.Raising

/-! # Converting a document into a list

`bson2list` counts the elements of a document with one iterator and converts
them with another into a list of that length, and so for every embedded
document and array.
-/

namespace Mongolite

/-- The values a conversion makes. What depends on floating point or on the calendar is kept as
the number it is made from. -/
inductive RValue
  | null
  | logical (b : Bool)
  | integer (i : ℤ)
  | double (bytes : List UInt8)
  | doubleOfInt (i : ℤ)
  | doubleOfDecimal128 (bytes : List UInt8)
  | posixct (ms : ℤ)
  | timeText (ms : ℤ)
  | text (s : String)
  | utf8Text (bytes : List UInt8)
  | raw (bytes : List UInt8) (type : UInt8)
  | list (values : List RValue)
  | namedList (entries : List (List UInt8 × RValue))

structure ConvertOptions where
  bigintAsChar : Bool
  dateAsChar : Bool

def readI64le (bs : List UInt8) : ℤ := (BitVec.ofNat 64 (ofBytes (bs.take 8))).toInt

def hexDigit (n : ℕ) : Char := "0123456789abcdef".toList.getD n '0'

def bsonOidToString (bytes : List UInt8) : String :=
  String.ofList (bytes.flatMap fun b => [hexDigit (b.toNat / 16), hexDigit (b.toNat % 16)])

def convertDate (opts : ConvertOptions) (it : BsonIter) : RValue :=
  let epoch := readI64le (it.data.drop it.d1)
  if opts.dateAsChar then .timeText epoch else .posixct epoch

def convertTimestamp (it : BsonIter) : RValue :=
  let increment := readU32le (it.data.drop it.d1)
  let timestamp := readU32le (it.data.drop (it.d1 + 4))
  -- the names are "t" and "i"
  .namedList [([0x74], .integer (toInt32 timestamp)), ([0x69], .integer (toInt32 increment))]

def convertBinary (it : BsonIter) : RValue :=
  let subtype := byteAt it.data it.d2
  let len := readU32le (it.data.drop it.d1)
  if subtype = bsonSubtypeBinaryDeprecated then
    .raw ((it.data.drop (it.d3 + 4)).take (len - 4)) subtype
  else .raw ((it.data.drop it.d3).take len) subtype

/-- The branches of `ConvertValue` that make no list; `none` is the branch that warns. -/
def convertScalar (opts : ConvertOptions) (it : BsonIter) : Option RValue :=
  match bsonIterType it with
  | some .int32 =>
    let res := readI32le (it.data.drop it.d1)
    -- `NA_INTEGER` is the smallest `int`
    some (if res = -2 ^ 31 then .doubleOfInt res else .integer res)
  | some .null => some .null
  | some .bool => some (.logical (byteAt it.data it.d1 ≠ 0))
  | some .double => some (.double ((it.data.drop it.d1).take 8))
  | some .int64 =>
    let x := readI64le (it.data.drop it.d1)
    some (if opts.bigintAsChar then .text (toString x) else .doubleOfInt x)
  | some .utf8 | some .code | some .symbol => some (.utf8Text (cString (it.data.drop it.d2)))
  | some .binary => some (convertBinary it)
  | some .dateTime => some (convertDate opts it)
  | some .decimal128 => some (.doubleOfDecimal128 ((it.data.drop it.d1).take 16))
  | some .timestamp => some (convertTimestamp it)
  | some .oid => some (.text (bsonOidToString ((it.data.drop it.d1).take 12)))
  | _ => none

def unimplementedType (type : UInt8) : String :=
  "Unimplemented BSON type " ++ toString type.toNat ++ "\n"

/-- A value, the warnings on the way, and for each list made the number of entries that were
allocated and stored. -/
structure Converted where
  value : RValue
  warnings : List String
  levels : List (ℕ × ℕ)

structure Filling where
  entries : List (List UInt8 × RValue)
  stored : ℕ
  warnings : List String
  levels : List (ℕ × ℕ)

def allocVector (count : ℕ) : Filling := ⟨List.replicate count ([], .null), 0, [], []⟩

/-- `SET_VECTOR_ELT` at the next index, which it checks; the name of an entry is set with it. -/
def Filling.store (st : Filling) (key : List UInt8) (c : Converted) : Except String Filling :=
  if st.stored < st.entries.length then
    .ok ⟨st.entries.set st.stored (key, c.value), st.stored + 1, st.warnings ++ c.warnings,
      st.levels ++ c.levels⟩
  else .error ("attempt to set index " ++ toString st.stored ++ "/" ++
    toString st.entries.length ++ " in SET_VECTOR_ELT")

/-- The counting pass; `none` means that it did not end within `fuel` rounds. -/
def countElements : ℕ → BsonIter → ℕ → Option ℕ
  | 0, _, _ => none
  | fuel + 1, counter, count =>
    match bsonIterNext counter with
    | (false, _) => some count
    | (true, counter') => countElements fuel counter' (count + 1)

mutual

def convertValue (opts : ConvertOptions) : ℕ → BsonIter → Option (Except String Converted)
  | 0, _ => none
  | fuel + 1, it =>
    if bsonIterType it = some .array then
      convertArray opts fuel (bsonIterRecurse it) (bsonIterRecurse it)
    else if bsonIterType it = some .document then
      convertObject opts fuel (bsonIterRecurse it) (bsonIterRecurse it)
    else
      match convertScalar opts it with
      | some v => some (.ok ⟨v, [], []⟩)
      | none => some (.ok ⟨.null, [unimplementedType (byteAt it.data it.type)], []⟩)

/-- The filling pass of `ConvertArray` and `ConvertObject`. -/
def fillList (opts : ConvertOptions) : ℕ → BsonIter → Filling → Option (Except String Filling)
  | 0, _, _ => none
  | fuel + 1, it, st =>
    match bsonIterNext it with
    | (false, _) => some (.ok st)
    | (true, it') =>
      andThen (convertValue opts fuel it') fun c =>
        andThen (some (st.store (bsonIterKey it') c)) (fillList opts fuel it')

/-- The keys of an array are not used. -/
def convertArray (opts : ConvertOptions) :
    ℕ → BsonIter → BsonIter → Option (Except String Converted)
  | 0, _, _ => none
  | fuel + 1, it, counter =>
    match countElements fuel counter 0 with
    | none => none
    | some count =>
      andThen (fillList opts fuel it (allocVector count)) fun st =>
        some (.ok ⟨.list (st.entries.map Prod.snd), st.warnings, (count, st.stored) :: st.levels⟩)

def convertObject (opts : ConvertOptions) :
    ℕ → BsonIter → BsonIter → Option (Except String Converted)
  | 0, _, _ => none
  | fuel + 1, it, counter =>
    match countElements fuel counter 0 with
    | none => none
    | some count =>
      andThen (fillList opts fuel it (allocVector count)) fun st =>
        some (.ok ⟨.namedList st.entries, st.warnings, (count, st.stored) :: st.levels⟩)

end

/-- `bson2list`; its calls nest less deeply than the document is long. -/
def bson2list (opts : ConvertOptions) (b : Bson) : Option (Except String Converted) :=
  convertObject opts b.bytes.length (bsonIterInit b) (bsonIterInit b)

end Mongolite
