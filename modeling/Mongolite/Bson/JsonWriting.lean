import Mongolite.Bson.Base64
import Mongolite.Bson.Conversion
import Mongolite.Bson.Decimal128
import Mongolite.Bson.Escaping
import Mongolite.Bson.Utf8Validate
import Mongolite.Library.DoubleText
import Mongolite.Library.IsoTime

/-! # Writing documents as JSON

`bson_as_relaxed_extended_json` visits the elements of a document and appends a
text for each. A visit that cannot append stops, as does one of a corrupt
element; only the second makes the document invalid. The text may take up
`UINT32_MAX - 1` bytes.
-/

namespace Mongolite

open Appended

/-! ## Values -/

/-- `mcommon_json_append_value_double`; the parts are those of `value`. -/
def jsonAppendValueDouble (value : DoubleFields) : Appended :=
  if value.isFinite then chars (doubleText value)
  else
    ((literal "\x7b \"$numberDouble\" : \"").andThen
      (if value.isNaN then literal "NaN"
        else if value.negative then literal "-Infinity" else literal "Infinity")).andThen
      (literal "\" \x7d")

def jsonAppendValueDecimal128 (value : BsonDecimal128) : Appended :=
  ((literal "\x7b \"$numberDecimal\" : \"").andThen (chars value.toText)).andThen
    (literal "\" \x7d")

def jsonAppendValueOid (oid : List UInt8) : Appended :=
  ((literal "\x7b \"$oid\" : \"").andThen (literal (bsonOidToString oid))).andThen
    (literal "\" \x7d")

/-- `%02x` -/
def twoHexDigits (b : UInt8) : List Char := [hexDigit (b.toNat / 16), hexDigit (b.toNat % 16)]

def jsonAppendValueBinary (subtype : UInt8) (bytes : List UInt8) : Appended :=
  (((literal "\x7b \"$binary\" : \x7b \"base64\" : \"").andThen
    (chars (mcommonB64Ntop bytes))).andThen
      (literal "\", \"subType\" : \"")).andThen
        (chars (twoHexDigits subtype ++ "\" \x7d \x7d".toList))

/-- `mcommon_iso8601_string_append` -/
def iso8601Text (msecSinceEpoch : ℤ) : List Char :=
  let msecPart := msecSinceEpoch.tmod 1000
  strftime (gmtime (msecSinceEpoch.tdiv 1000)) ++
    if msecPart ≠ 0 then '.' :: (decimal 3 msecPart ++ ['Z']) else ['Z']

def jsonAppendValueDateTime (msecSinceEpoch : ℤ) : Appended :=
  -- 10000-01-01T00:00:00Z
  if msecSinceEpoch < 0 ∨ 253402300800000 ≤ msecSinceEpoch then
    chars ("\x7b \"$date\" : \x7b \"$numberLong\" : \"".toList ++
      (decimal 0 msecSinceEpoch ++ "\" \x7d \x7d".toList))
  else
    ((literal "\x7b \"$date\" : \"").andThen (chars (iso8601Text msecSinceEpoch))).andThen
      (literal "\" \x7d")

def jsonAppendValueTimestamp (timestamp increment : ℕ) : Appended :=
  chars ("\x7b \"$timestamp\" : \x7b \"t\" : ".toList ++ (decimal 0 timestamp ++
    (", \"i\" : ".toList ++ (decimal 0 increment ++ " \x7d \x7d".toList))))

def regexOptionsSorted : List Char := "ilmsux".toList

/-- `mcommon_string_append_selected_chars` -/
def selectedChars (template : List Char) (selector : List UInt8) : List Char :=
  template.filter fun c => selector.contains (UInt8.ofNat c.toNat)

def jsonAppendValueRegex (pattern options : List UInt8) : Appended :=
  ((((literal "\x7b \"$regularExpression\" : \x7b \"pattern\" : \"").andThen
    (jsonAppendEscaped false pattern)).andThen
      (literal "\", \"options\" : \"")).andThen
        (chars (selectedChars regexOptionsSorted options))).andThen
          (literal "\" \x7d \x7d")

def jsonAppendValueDbPointer (collection oid : List UInt8) : Appended :=
  (((((literal "\x7b \"$dbPointer\" : \x7b \"$ref\" : \"").andThen
    (jsonAppendEscaped false collection)).andThen
      (literal "\"")).andThen
        (literal ", \"$id\" : ")).andThen
          (jsonAppendValueOid oid)).andThen
            (literal " \x7d \x7d")

def jsonAppendValueCode (code : List UInt8) : Appended :=
  ((literal "\x7b \"$code\" : \"").andThen (jsonAppendEscaped true code)).andThen
    (literal "\" \x7d")

def jsonAppendValueSymbol (symbol : List UInt8) : Appended :=
  ((literal "\x7b \"$symbol\" : \"").andThen (jsonAppendEscaped true symbol)).andThen
    (literal "\" \x7d")

structure Rendered where
  text : List UInt8
  valid : Bool

/-- `mcommon_json_append_value_codewscope`, which appends the rest whatever fails. -/
def jsonAppendValueCodeWScope (code : List UInt8) (scope : Rendered) : Rendered :=
  ⟨(literal "\x7b \"$code\" : \"").text ++ ((jsonAppendEscaped true code).text ++
    ((literal "\", \"$scope\" : ").text ++ (scope.text ++ (literal " \x7d").text))), scope.valid⟩

/-! ## Visits -/

def bsonIterUtf8Len (it : BsonIter) : ℕ := (readI32le (it.data.drop it.d1) - 1).toNat

/-- The bytes that `bson_iter_utf8` gives with their length. -/
def bsonIterUtf8WithLen (it : BsonIter) : List UInt8 :=
  (it.data.drop it.d2).take (bsonIterUtf8Len it)

def bsonIterBinary (it : BsonIter) : UInt8 × List UInt8 :=
  let subtype := byteAt it.data it.d2
  let len := readU32le (it.data.drop it.d1)
  if subtype = bsonSubtypeBinaryDeprecated then
    (subtype, (it.data.drop (it.d3 + 4)).take (len - 4))
  else (subtype, (it.data.drop it.d3).take len)

def bsonIterCollection (it : BsonIter) : List UInt8 :=
  (it.data.drop it.d2).take (readU32le (it.data.drop it.d1) - 1)

def bsonIterCode (it : BsonIter) : List UInt8 :=
  (it.data.drop it.d3).take (readU32le (it.data.drop it.d2) - 1)

def bsonIterScope (it : BsonIter) : List UInt8 :=
  (it.data.drop it.d4).take (readU32le (it.data.drop it.d4))

def bsonIterDecimal128 (it : BsonIter) : BsonDecimal128 :=
  ⟨UInt64.ofNat (ofBytes ((it.data.drop (it.d1 + 8)).take 8)),
    UInt64.ofNat (ofBytes ((it.data.drop it.d1).take 8))⟩

/-- How the visit of an element ends: it goes on, perhaps with an error marked that the next element
takes back, or it stops. -/
inductive Visited
  | next (text : List UInt8) (marked : Bool)
  | stop (text : List UInt8) (valid : Bool)

/-- A visitor that could not append stops; the document is still valid. -/
def visited (a : Appended) : Visited := if a.ok then .next a.text false else .stop a.text true

/-- Text that is no UTF-8 marks an error and stops. -/
def visitedText (str : List UInt8) (a : Appended) : Visited :=
  if bsonUtf8Validate true str then visited a else .stop [] false

def visitedContainer (r : Rendered) : Visited :=
  if r.valid then .next r.text false else .stop r.text false

/-- An embedded document; one that is not framed only marks an error. -/
def visitedEmbedded (bytes : List UInt8) (nested : Bson → Rendered) : Visited :=
  match bsonInitStatic bytes with
  | none => .next [] true
  | some b => visitedContainer (nested b)

/-- The `switch` of `bson_iter_visit_all`; `nested` appends an embedded document or array. -/
def visitValue (nested : Bool → Bson → Rendered) (it : BsonIter) : Visited :=
  match bsonIterType it with
  | some .double =>
    visited (jsonAppendValueDouble (doubleFields (ofBytes ((it.data.drop it.d1).take 8))))
  | some .utf8 =>
    visitedText (bsonIterUtf8WithLen it) (jsonAppendValueUtf8 true (bsonIterUtf8WithLen it))
  | some .document => visitedEmbedded it.embedded (nested true)
  | some .array => visitedEmbedded it.embedded (nested false)
  | some .binary => visited (jsonAppendValueBinary (bsonIterBinary it).1 (bsonIterBinary it).2)
  | some .undefined => visited (literal "\x7b \"$undefined\" : true \x7d")
  | some .oid => visited (jsonAppendValueOid ((it.data.drop it.d1).take 12))
  | some .bool => visited (literal (if byteAt it.data it.d1 ≠ 0 then "true" else "false"))
  | some .dateTime => visited (jsonAppendValueDateTime (readI64le (it.data.drop it.d1)))
  | some .null => visited (literal "null")
  | some .regex =>
    let pattern := cString (it.data.drop it.d1)
    visitedText pattern (jsonAppendValueRegex pattern (cString (it.data.drop it.d2)))
  | some .dbPointer =>
    visitedText (bsonIterCollection it)
      (jsonAppendValueDbPointer (bsonIterCollection it) ((it.data.drop it.d3).take 12))
  | some .code =>
    visitedText (bsonIterUtf8WithLen it) (jsonAppendValueCode (bsonIterUtf8WithLen it))
  | some .symbol =>
    visitedText (bsonIterUtf8WithLen it) (jsonAppendValueSymbol (bsonIterUtf8WithLen it))
  | some .codeWScope =>
    if bsonUtf8Validate true (bsonIterCode it) then
      visitedEmbedded (bsonIterScope it) fun scope =>
        jsonAppendValueCodeWScope (bsonIterCode it) (nested true scope)
    else .stop [] false
  | some .int32 => visited (chars (decimal 0 (readI32le (it.data.drop it.d1))))
  | some .timestamp =>
    visited (jsonAppendValueTimestamp (readU32le (it.data.drop (it.d1 + 4)))
      (readU32le (it.data.drop it.d1)))
  | some .int64 => visited (chars (decimal 0 (readI64le (it.data.drop it.d1))))
  | some .decimal128 => visited (jsonAppendValueDecimal128 (bsonIterDecimal128 it))
  | some .maxKey => visited (literal "\x7b \"$maxKey\" : 1 \x7d")
  | some .minKey => visited (literal "\x7b \"$minKey\" : 1 \x7d")
  | some .eod | none => .next [] false

def jsonAppendVisitBefore (hasKeys notFirstItem : Bool) (key : List UInt8) : Appended :=
  let separator := if notFirstItem then literal ", " else ⟨[], true⟩
  if hasKeys then separator.andThen (jsonAppendKey key) else separator

/-- `bson_iter_visit_all` from an iterator on, and the result of
`mcommon_json_append_bson_values`. -/
def bsonIterVisitAll (nested : Bool → Bson → Rendered) (hasKeys notFirstItem : Bool)
    (it : BsonIter) : Rendered :=
  match _hnext : bsonIterNext it with
  | (false, it') => ⟨[], it'.errOff = 0⟩
  | (true, it') =>
    let key := bsonIterKey it'
    if key ≠ [] ∧ bsonUtf8Validate false key = false then ⟨[], false⟩
    else
      let before := jsonAppendVisitBefore hasKeys notFirstItem key
      if before.ok = false then ⟨before.text, true⟩
      else
        match visitValue nested it' with
        | .stop text valid => ⟨before.text ++ text, valid⟩
        | .next text marked =>
          let rest := bsonIterVisitAll nested hasKeys true
            { it' with errOff := if marked then it'.off else it'.errOff }
          ⟨before.text ++ (text ++ rest.text), rest.valid⟩
termination_by it.remaining
decreasing_by
  have hless := Converts.remaining_lt _hnext
  simp only [BsonIter.remaining, BsonIter.data] at hless ⊢
  omega

section Visits

variable {nested : Bool → Bson → Rendered} {hasKeys notFirstItem : Bool} {it it' : BsonIter}

theorem visitAll_stop (hnext : bsonIterNext it = (false, it')) :
    bsonIterVisitAll nested hasKeys notFirstItem it = ⟨[], it'.errOff = 0⟩ := by
  rw [bsonIterVisitAll]
  split
  · rename_i heq
    rw [hnext] at heq
    rw [(Prod.mk.inj heq).2]
  · rename_i heq
    rw [hnext] at heq
    cases heq

theorem visitAll_next (hnext : bsonIterNext it = (true, it')) :
    bsonIterVisitAll nested hasKeys notFirstItem it =
      if bsonIterKey it' ≠ [] ∧ bsonUtf8Validate false (bsonIterKey it') = false then ⟨[], false⟩
      else
        let before := jsonAppendVisitBefore hasKeys notFirstItem (bsonIterKey it')
        if before.ok = false then ⟨before.text, true⟩
        else
          match visitValue nested it' with
          | .stop text valid => ⟨before.text ++ text, valid⟩
          | .next text marked =>
            let rest := bsonIterVisitAll nested hasKeys true
              { it' with errOff := if marked then it'.off else it'.errOff }
            ⟨before.text ++ (text ++ rest.text), rest.valid⟩ := by
  rw [bsonIterVisitAll]
  split
  · rename_i heq
    rw [hnext] at heq
    cases heq
  · rename_i heq
    rw [hnext] at heq
    obtain rfl := (Prod.mk.inj heq).2
    rfl

end Visits

def bsonEmpty (b : Bson) : Bool := b.bytes.length = 5 ∨ byteAt b.bytes 4 = 0

structure ContainerTexts where
  empty : String
  beginNonEmpty : String
  endNonEmpty : String
  omitted : String

def documentTexts : ContainerTexts := ⟨"\x7b \x7d", "\x7b ", " \x7d", "\x7b ... \x7d"⟩

def arrayTexts : ContainerTexts := ⟨"[ ]", "[ ", " ]", "[ ... ]"⟩

/-- `mcommon_json_append_bson_container` of what is not empty. -/
def jsonAppendNonEmpty (texts : ContainerTexts) (values : Rendered) : Rendered :=
  ⟨(literal texts.beginNonEmpty).text ++ (values.text ++ (literal texts.endNonEmpty).text),
    values.valid⟩

/-- `mcommon_json_append_bson_document` and `mcommon_json_append_bson_array`. -/
def jsonAppendBsonContainer : ℕ → Bool → Bson → Rendered
  | 0, isDocument, b =>
    let texts := if isDocument then documentTexts else arrayTexts
    if bsonEmpty b then ⟨(literal texts.empty).text, true⟩
    else ⟨(literal texts.omitted).text, true⟩
  | maxDepth + 1, isDocument, b =>
    let texts := if isDocument then documentTexts else arrayTexts
    if bsonEmpty b then ⟨(literal texts.empty).text, true⟩
    else
      jsonAppendNonEmpty texts
        (bsonIterVisitAll (jsonAppendBsonContainer maxDepth) isDocument false (bsonIterInit b))

/-- What `bson_as_relaxed_extended_json` returns: a text, `NULL`, or the front of a text that is too
long for a string. -/
inductive JsonOutcome
  | text (s : List UInt8)
  | null
  | truncated

def bsonMaxRecursion : ℕ := 200

/-- `bson_as_relaxed_extended_json`; where the limit of `UINT32_MAX - 1` bytes is exceeded, the text
is cut there. -/
def bsonAsRelaxedExtendedJson (b : Bson) : JsonOutcome :=
  let r := jsonAppendBsonContainer bsonMaxRecursion true b
  if 2 ^ 32 - 2 < r.text.length then .truncated
  else if r.valid then .text r.text else .null

end Mongolite
