import Mongolite.Bson.Convert

/-! # Well-formed documents

The documents of the BSON grammar, their bytes, and the lists they stand for: a
document is a named list with an entry for each element, an array an unnamed
one, and what has no conversion is `NULL` in its place.
-/

namespace Mongolite

/-- Bytes without a zero byte, as a key or a pattern. -/
abbrev CString := { s : List UInt8 // 0 ∉ s }

def CString.ofBytes (bs : List UInt8) : CString :=
  ⟨cString bs, not_mem_cString bs⟩

abbrev Bytes (n : ℕ) := { bs : List UInt8 // bs.length = n }

mutual

inductive BsonValue
  | double (bits : Bytes 8)
  | utf8 (s : List UInt8)
  | document (es : Elements)
  | array (es : Elements)
  | binary (subtype : UInt8) (bytes : List UInt8)
  | undefined
  | oid (bytes : Bytes 12)
  | bool (b : Bool)
  | dateTime (bits : Bytes 8)
  | null
  | regex (pattern options : CString)
  | dbPointer (collection : List UInt8) (oid : Bytes 12)
  | code (s : List UInt8)
  | symbol (s : List UInt8)
  | codeWScope (source : List UInt8) (scope : Elements)
  | int32 (bits : Bytes 4)
  | timestamp (bits : Bytes 8)
  | int64 (bits : Bytes 8)
  | decimal128 (bits : Bytes 16)
  | maxKey
  | minKey

inductive Elements
  | nil
  | cons (key : CString) (value : BsonValue) (rest : Elements)

end

def BsonValue.ofInt32 (n : ℕ) : BsonValue := .int32 ⟨toBytes 4 n, length_toBytes 4 n⟩

def BsonValue.type : BsonValue → BsonType
  | double _ => .double
  | utf8 _ => .utf8
  | document _ => .document
  | array _ => .array
  | binary _ _ => .binary
  | undefined => .undefined
  | oid _ => .oid
  | bool _ => .bool
  | dateTime _ => .dateTime
  | null => .null
  | regex _ _ => .regex
  | dbPointer _ _ => .dbPointer
  | code _ => .code
  | symbol _ => .symbol
  | codeWScope _ _ => .codeWScope
  | int32 _ => .int32
  | timestamp _ => .timestamp
  | int64 _ => .int64
  | decimal128 _ => .decimal128
  | maxKey => .maxKey
  | minKey => .minKey

/-- A length, which counts the closing zero byte, the bytes and the zero byte. -/
def encodeText (s : List UInt8) : List UInt8 := toBytes 4 (s.length + 1) ++ (s ++ [0])

/-- The bytes of elements as a document: the length of it all, the elements and a zero byte. -/
def encodeLevel (es : List UInt8) : List UInt8 := toBytes 4 (es.length + 5) ++ (es ++ [0])

/-- Subtype 2 has a redundant length header in the data. -/
def encodeBinary (subtype : UInt8) (bytes : List UInt8) : List UInt8 :=
  if subtype = bsonSubtypeBinaryDeprecated then
    toBytes 4 (bytes.length + 4) ++ (subtype :: (toBytes 4 bytes.length ++ bytes))
  else toBytes 4 bytes.length ++ (subtype :: bytes)

mutual

def BsonValue.encode : BsonValue → List UInt8
  | .double bits => bits.1
  | .utf8 s => encodeText s
  | .document es => encodeLevel es.encode
  | .array es => encodeLevel es.encode
  | .binary subtype bytes => encodeBinary subtype bytes
  | .undefined => []
  | .oid bytes => bytes.1
  | .bool b => [if b then 1 else 0]
  | .dateTime bits => bits.1
  | .null => []
  | .regex pattern options => pattern.1 ++ 0 :: (options.1 ++ [0])
  | .dbPointer collection oid => encodeText collection ++ oid.1
  | .code s => encodeText s
  | .symbol s => encodeText s
  | .codeWScope source scope =>
    toBytes 4 ((encodeText source).length + (encodeLevel scope.encode).length + 4) ++
      (encodeText source ++ encodeLevel scope.encode)
  | .int32 bits => bits.1
  | .timestamp bits => bits.1
  | .int64 bits => bits.1
  | .decimal128 bits => bits.1
  | .maxKey => []
  | .minKey => []

/-- Each element is a type byte, its key and a zero byte, and its value. -/
def Elements.encode : Elements → List UInt8
  | .nil => []
  | .cons key value rest => value.type.byte :: (key.1 ++ 0 :: (value.encode ++ rest.encode))

end

mutual

def BsonValue.toR (opts : ConvertOptions) : BsonValue → RValue
  | .double bits => .double bits
  | .utf8 s => .utf8Text (cString s)
  | .document es => .namedList (es.toR opts)
  | .array es => .list ((es.toR opts).map Prod.snd)
  | .binary subtype bytes => .raw bytes subtype
  | .undefined => .null
  | .oid bytes => .text (bsonOidToString bytes)
  | .bool b => .logical b
  | .dateTime bits =>
    if opts.dateAsChar then .timeText (readI64le bits) else .posixct (readI64le bits)
  | .null => .null
  | .regex _ _ => .null
  | .dbPointer _ _ => .null
  | .code s => .utf8Text (cString s)
  | .symbol s => .utf8Text (cString s)
  | .codeWScope _ _ => .null
  | .int32 bits =>
    if readI32le bits = -2 ^ 31 then .doubleOfInt (readI32le bits) else .integer (readI32le bits)
  | .timestamp bits =>
    .namedList [([0x74], .integer (readI32le (bits.1.drop 4))), ([0x69], .integer (readI32le bits))]
  | .int64 bits =>
    if opts.bigintAsChar then .text (toString (readI64le bits)) else .doubleOfInt (readI64le bits)
  | .decimal128 bits => .doubleOfDecimal128 bits
  | .maxKey => .null
  | .minKey => .null

/-- One entry for each element, in the same order and under the element's key. -/
def Elements.toR (opts : ConvertOptions) : Elements → List (List UInt8 × RValue)
  | .nil => []
  | .cons key value rest => (key.1, value.toR opts) :: rest.toR opts

end

mutual

def BsonValue.warnings : BsonValue → List String
  | .document es => es.warnings
  | .array es => es.warnings
  | .undefined => [unimplementedType BsonType.undefined.byte]
  | .regex _ _ => [unimplementedType BsonType.regex.byte]
  | .dbPointer _ _ => [unimplementedType BsonType.dbPointer.byte]
  | .codeWScope _ _ => [unimplementedType BsonType.codeWScope.byte]
  | .maxKey => [unimplementedType BsonType.maxKey.byte]
  | .minKey => [unimplementedType BsonType.minKey.byte]
  | _ => []

def Elements.warnings : Elements → List String
  | .nil => []
  | .cons _ value rest => value.warnings ++ rest.warnings

end

@[simp] theorem length_encodeText (s : List UInt8) : (encodeText s).length = s.length + 5 := by
  simp only [encodeText, List.length_append, length_toBytes, List.length_singleton]
  omega

@[simp] theorem length_encodeLevel (es : List UInt8) :
    (encodeLevel es).length = es.length + 5 := by
  simp only [encodeLevel, List.length_append, length_toBytes, List.length_singleton]
  omega

theorem readU32le_encodeLevel {es : List UInt8} (rest : List UInt8)
    (h : (encodeLevel es).length < 2 ^ 31) :
    readU32le (encodeLevel es ++ rest) = (encodeLevel es).length := by
  rw [length_encodeLevel] at h ⊢
  rw [encodeLevel, List.append_assoc, readU32le_toBytes _ (by omega)]

/-- A document of the grammar, as long as its length prefix can say. -/
def Elements.toBson (es : Elements) (h : (encodeLevel es.encode).length < 2 ^ 31) : Bson :=
  ⟨encodeLevel es.encode, by
    constructor
    · rw [length_encodeLevel]
      omega
    · exact h
    · have hread := readU32le_encodeLevel [] h
      rwa [List.append_nil] at hread
    · simp [encodeLevel]⟩

end Mongolite
