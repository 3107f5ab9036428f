import Mongolite.Bson.Grammar
import Mongolite.Bson.JsonWriting

/-! # The JSON that values stand for

Numbers, texts and containers stand for those of JSON, and the other values for
objects whose names start with a dollar sign. The text appended for a value
stands for the same.
-/

namespace Mongolite

open Json Appended

variable {s : List UInt8} {b : UInt8} {c : Char} {cs text : List Char} {v : Json}
  {allowNul : Bool}

/-! ## Values -/

/-- The JSON of a text; there is none of bytes that are no UTF-8. -/
def textJson (s : List UInt8) : Option Json := (textChars true s).map jsonString

def doubleJson (f : DoubleFields) : Json :=
  if f.isFinite then .number (doubleText f)
  else
    jsonObject [("$numberDouble", jsonString
      (if f.isNaN then "NaN" else if f.negative then "-Infinity" else "Infinity").toList)]

def integerJson (x : ℤ) : Json := .number (decimal 0 x)

def oidJson (oid : List UInt8) : Json :=
  jsonObject [("$oid", jsonString (bsonOidToString oid).toList)]

def binaryJson (subtype : UInt8) (bytes : List UInt8) : Json :=
  jsonObject [("$binary", jsonObject [("base64", jsonString (mcommonB64Ntop bytes)),
    ("subType", jsonString (twoHexDigits subtype))])]

/-- Instants outside of the years 1970 to 9999 are numbers. -/
def dateTimeJson (msecSinceEpoch : ℤ) : Json :=
  if msecSinceEpoch < 0 ∨ 253402300800000 ≤ msecSinceEpoch then
    jsonObject [("$date", jsonObject [("$numberLong", jsonString (decimal 0 msecSinceEpoch))])]
  else jsonObject [("$date", jsonString (iso8601Text msecSinceEpoch))]

def timestampJson (timestamp increment : ℕ) : Json :=
  jsonObject [("$timestamp",
    jsonObject [("t", integerJson timestamp), ("i", integerJson increment)])]

def decimal128Json (dec : BsonDecimal128) : Json :=
  jsonObject [("$numberDecimal", jsonString dec.toText)]

def regexJson (pattern : List Char) (options : List UInt8) : Json :=
  jsonObject [("$regularExpression", jsonObject [("pattern", jsonString pattern),
    ("options", jsonString (selectedChars regexOptionsSorted options))])]

def dbPointerJson (collection : List Char) (oid : List UInt8) : Json :=
  jsonObject [("$dbPointer", jsonObject [("$ref", jsonString collection), ("$id", oidJson oid)])]

def decimal128OfBytes (bytes : List UInt8) : BsonDecimal128 :=
  ⟨UInt64.ofNat (ofBytes ((bytes.drop 8).take 8)), UInt64.ofNat (ofBytes (bytes.take 8))⟩

mutual

/-- The JSON that a value stands for; there is none where a text in it is no UTF-8. -/
def BsonValue.toJson : BsonValue → Option Json
  | .double bits => some (doubleJson (doubleFields (ofBytes bits.1)))
  | .utf8 s => textJson s
  | .document es => es.toMembers.map Json.object
  | .array es => es.toMembers.map fun ms => Json.array (ms.map Prod.snd)
  | .binary subtype bytes => some (binaryJson subtype bytes)
  | .undefined => some (jsonObject [("$undefined", .bool true)])
  | .oid bytes => some (oidJson bytes.1)
  | .bool b => some (.bool b)
  | .dateTime bits => some (dateTimeJson (readI64le bits.1))
  | .null => some .null
  | .regex pattern options => (textChars false pattern.1).map fun cs => regexJson cs options.1
  | .dbPointer collection oid => (textChars false collection).map fun cs => dbPointerJson cs oid.1
  | .code s => (textJson s).map fun v => jsonObject [("$code", v)]
  | .symbol s => (textJson s).map fun v => jsonObject [("$symbol", v)]
  | .codeWScope source scope =>
    (textJson source).bind fun v => scope.toMembers.map fun ms =>
      jsonObject [("$code", v), ("$scope", .object ms)]
  | .int32 bits => some (integerJson (readI32le bits.1))
  | .timestamp bits => some (timestampJson (readU32le (bits.1.drop 4)) (readU32le bits.1))
  | .int64 bits => some (integerJson (readI64le bits.1))
  | .decimal128 bits => some (decimal128Json (decimal128OfBytes bits.1))
  | .maxKey => some (jsonObject [("$maxKey", integerJson 1)])
  | .minKey => some (jsonObject [("$minKey", integerJson 1)])

def Elements.toMembers : Elements → Option (List (List ℕ × Json))
  | .nil => some []
  | .cons key value rest =>
    (textChars false key.1).bind fun cs => value.toJson.bind fun v =>
      rest.toMembers.map fun ms => (cs.map Char.toNat, v) :: ms

end

/-! ## What is appended -/

/-- A text was appended that stands for this value. -/
def Appended.Shows (a : Appended) (v : Json) : Prop := ∃ text, a = chars text ∧ Spells text v

/-! ## What is appended for values -/

theorem shows_utf8 (h : textChars true s = some cs) :
    (jsonAppendValueUtf8 true s).Shows (jsonString cs) :=
  ⟨_, jsonAppendValueUtf8_eq h, spells_escape cs⟩

theorem shows_integer (x : ℤ) : (chars (decimal 0 x)).Shows (integerJson x) :=
  ⟨_, rfl, spells_number (isNumber_decimal x)⟩

/-! ## Characters that are left as they are -/

theorem isPlain_decimal (width : ℕ) (x : ℤ) : isPlain (decimal width x) = true := by
  have hdigits (w : ℕ) : isPlain (zeroPad w (Nat.toDigits 10 x.natAbs)) = true :=
    isPlain_of_mem fun c hc => isPlainChar_of_isDigit (isDigit_of_mem_zeroPad hc)
  unfold decimal
  split_ifs
  · rw [isPlain_cons, hdigits]
    rfl
  · exact hdigits width

theorem isPlain_plusDecimal (x : ℤ) : isPlain (plusDecimal x) = true := by
  have hdigits : isPlain (Nat.toDigits 10 x.natAbs) = true :=
    isPlain_of_mem fun c hc =>
      isPlainChar_of_isDigit (Nat.isDigit_of_mem_toDigits (by decide) (by decide) hc)
  rw [plusDecimal, isPlain_cons, hdigits]
  split_ifs <;> rfl

theorem isPlain_iso8601Text (msecSinceEpoch : ℤ) : isPlain (iso8601Text msecSinceEpoch) = true := by
  have htime (t : CalendarTime) : isPlain (strftime t) = true := by
    simp only [strftime, isPlain_append, isPlain_cons, isPlain_decimal]
    rfl
  simp only [iso8601Text, isPlain_append, htime]
  split_ifs
  · rw [isPlain_cons, isPlain_append, isPlain_decimal]
    rfl
  · rfl

theorem isPlainChar_hexDigit (n : ℕ) : isPlainChar (hexDigit n) = true := by
  have hall : ∀ n < 16, isPlainChar (hexDigit n) = true := by decide
  rcases Nat.lt_or_ge n 16 with hlt | hge
  · exact hall n hlt
  · rw [hexDigit, List.getD_eq_default _ _ hge]
    rfl

theorem isPlain_bsonOidToString (oid : List UInt8) :
    isPlain (bsonOidToString oid).toList = true := by
  rw [bsonOidToString, String.toList_ofList]
  refine isPlain_of_mem fun c hc => ?_
  obtain ⟨b, -, hc⟩ := List.mem_flatMap.mp hc
  simp only [List.mem_cons, List.not_mem_nil, or_false] at hc
  rcases hc with rfl | rfl <;> exact isPlainChar_hexDigit _

theorem isPlainChar_base64Char (n : ℕ) : isPlainChar (base64Char n) = true := by
  have hall : ∀ n < 64, isPlainChar (base64Char n) = true := by decide +kernel
  rcases Nat.lt_or_ge n 64 with hlt | hge
  · exact hall n hlt
  · rw [base64Char, List.getD_eq_default _ _ hge]
    rfl

theorem isPlain_ntop (bytes : List UInt8) : isPlain (mcommonB64Ntop bytes) = true := by
  fun_induction mcommonB64Ntop bytes with
  | case1 a b c src ih => simp only [isPlain_cons, isPlainChar_base64Char, ih, Bool.and_self]
  | case2 a b =>
    simp only [isPlain_cons, isPlainChar_base64Char, Bool.true_and]
    rfl
  | case3 a =>
    simp only [isPlain_cons, isPlainChar_base64Char, Bool.true_and]
    rfl
  | case4 => rfl

theorem isPlain_decimalText {negative : Bool} {whole : List Char} {fraction : Option (List Char)}
    (exponent : Option ℤ) (hwhole : isPlain whole = true)
    (hfraction : ∀ cs ∈ fraction, isPlain cs = true) :
    isPlain (decimalText negative whole fraction exponent) = true := by
  have hsign : isPlain (if negative then ['-'] else []) = true := by
    split_ifs <;> rfl
  have hpoint : isPlain (fraction.elim [] ('.' :: ·)) = true := by
    cases fraction with
    | none => rfl
    | some cs =>
      rw [Option.elim_some, isPlain_cons, hfraction cs rfl]
      rfl
  have hexponent : isPlain (exponent.elim [] fun e => 'E' :: plusDecimal e) = true := by
    cases exponent with
    | none => rfl
    | some e =>
      rw [Option.elim_some, isPlain_cons, isPlain_plusDecimal]
      rfl
  simp only [decimalText, isPlain_append, hsign, hwhole, hpoint, hexponent, Bool.and_self]

theorem isPlain_digitChar {ds : List ℕ} (h : ∀ d ∈ ds, d < 10) :
    isPlain (ds.map Nat.digitChar) = true :=
  isPlain_of_mem fun c hc => isPlainChar_of_isDigit (isDigit_of_mem_digitChar h c hc)

theorem isPlain_toText (dec : BsonDecimal128) : isPlain dec.toText = true := by
  have hsign : isPlain dec.signText = true := by
    unfold BsonDecimal128.signText
    split_ifs <;> rfl
  by_cases hfinite : dec.isFinite
  · obtain ⟨layout, -, -, htext, -⟩ := BsonDecimal128.toText_eq hfinite
    have hlt := List.forall_mem_append.mp layout.digits_lt
    rw [htext]
    refine isPlain_decimalText _ (isPlain_digitChar hlt.1) fun cs hcs => ?_
    obtain ⟨ds, hds, rfl⟩ := Option.mem_map.mp hcs
    rw [hds] at hlt
    exact isPlain_digitChar hlt.2
  · have hspecial : dec.combination = 30 ∨ dec.combination = 31 := by
      simp only [BsonDecimal128.isFinite, decide_eq_true_eq] at hfinite
      omega
    rw [BsonDecimal128.toText]
    rcases hspecial with h | h <;> rw [h]
    · rw [if_pos (by decide), isPlain_append, hsign]
      rfl
    · rfl

/-! ## What is appended for values -/

theorem shows_double (f : DoubleFields) : (jsonAppendValueDouble f).Shows (doubleJson f) := by
  unfold jsonAppendValueDouble doubleJson
  split_ifs with hfinite hnan hnegative
  · exact ⟨_, rfl, spells_number (isNumber_doubleText f)⟩
  all_goals
    refine ⟨_, ?_, spells_member (by decide) (spells_plain (by decide))⟩
    simp only [Appended.literal, chars_andThen_chars]
    rfl

/-- The text appended for a finite double is a number, and of all doubles this one is the nearest to
it. -/
theorem jsonAppendValueDouble_nearest {f : DoubleFields} (hfinite : f.isFinite = true) :
    ∃ text number, jsonAppendValueDouble f = chars text ∧ parse text = some (.number text) ∧
      readDecimal text = some number ∧ number.negative = f.negative ∧
        ∀ g : DoubleFields, g.value ≠ f.value →
          |number.value - f.value| < |number.value - g.value| := by
  obtain ⟨number, hread, hnegative, hnearest⟩ := f.doubleText_nearest
  refine ⟨doubleText f, number, ?_, parse_of_spells (spells_number (isNumber_doubleText f)), hread,
    hnegative, hnearest⟩
  rw [jsonAppendValueDouble, if_pos hfinite]

/-- The text of a tenth is not that of another double. -/
theorem jsonAppendValueDouble_tenth : ∃ text number,
    jsonAppendValueDouble (doubleFields 0x3FB999999999999A) = chars text ∧
      parse text = some (.number text) ∧ readDecimal text = some number ∧
        number.negative = false ∧
          ∀ g : DoubleFields, g.value ≠ (doubleFields 0x3FB999999999999A).value →
            |number.value - (doubleFields 0x3FB999999999999A).value| < |number.value - g.value| :=
  jsonAppendValueDouble_nearest (by decide)

theorem shows_oid (oid : List UInt8) : (jsonAppendValueOid oid).Shows (oidJson oid) := by
  refine ⟨_, ?_, spells_member (by decide) (spells_plain (isPlain_bsonOidToString oid))⟩
  simp [jsonAppendValueOid, Appended.literal, spacedMembers, spacedObject, spacedMember, bracketed,
    joined, quoted]

theorem shows_binary (subtype : UInt8) (bytes : List UInt8) :
    (jsonAppendValueBinary subtype bytes).Shows (binaryJson subtype bytes) := by
  have hsubtype : isPlain (twoHexDigits subtype) = true := by
    simp only [twoHexDigits, isPlain_cons, isPlainChar_hexDigit, Bool.true_and]
    rfl
  refine ⟨_, ?_, spells_member (by decide) (spells_members (by decide) (by decide)
    (spells_plain (isPlain_ntop bytes)) (spells_plain hsubtype))⟩
  simp [jsonAppendValueBinary, Appended.literal, spacedMembers, spacedObject, spacedMember,
    bracketed, joined, quoted]

theorem shows_dateTime (msecSinceEpoch : ℤ) :
    (jsonAppendValueDateTime msecSinceEpoch).Shows (dateTimeJson msecSinceEpoch) := by
  unfold jsonAppendValueDateTime dateTimeJson
  split_ifs
  · refine ⟨_, ?_, spells_member (by decide) (spells_member (by decide)
      (spells_plain (isPlain_decimal 0 msecSinceEpoch)))⟩
    simp [spacedMembers, spacedObject, spacedMember, bracketed, joined, quoted]
  · refine ⟨_, ?_, spells_member (by decide) (spells_plain (isPlain_iso8601Text msecSinceEpoch))⟩
    simp [Appended.literal, spacedMembers, spacedObject, spacedMember, bracketed, joined, quoted]

theorem shows_timestamp (timestamp increment : ℕ) :
    (jsonAppendValueTimestamp timestamp increment).Shows (timestampJson timestamp increment) := by
  refine ⟨_, ?_, spells_member (by decide) (spells_members (by decide) (by decide)
    (spells_number (isNumber_decimal timestamp)) (spells_number (isNumber_decimal increment)))⟩
  simp [jsonAppendValueTimestamp, spacedMembers, spacedObject, spacedMember, bracketed, joined,
    quoted]

theorem shows_decimal128 (dec : BsonDecimal128) :
    (jsonAppendValueDecimal128 dec).Shows (decimal128Json dec) := by
  refine ⟨_, ?_, spells_member (by decide) (spells_plain (isPlain_toText dec))⟩
  simp [jsonAppendValueDecimal128, Appended.literal, spacedMembers, spacedObject, spacedMember,
    bracketed, joined, quoted]

theorem shows_regex (h : textChars false s = some cs) (options : List UInt8) :
    (jsonAppendValueRegex s options).Shows (regexJson cs options) := by
  have hoptions : isPlain (selectedChars regexOptionsSorted options) = true := by
    have hall : isPlain regexOptionsSorted = true := by decide
    exact isPlain_of_mem fun c hc => List.all_eq_true.mp hall c (List.mem_of_mem_filter hc)
  refine ⟨_, ?_, spells_member (by decide) (spells_members (by decide) (by decide)
    (spells_escape cs) (spells_plain hoptions))⟩
  simp [jsonAppendValueRegex, jsonAppendEscaped_of_textChars h, Appended.literal, spacedMembers,
    spacedObject, spacedMember, bracketed, joined, quoted]

theorem shows_dbPointer (h : textChars false s = some cs) (oid : List UInt8) :
    (jsonAppendValueDbPointer s oid).Shows (dbPointerJson cs oid) := by
  obtain ⟨text, htext, hspells⟩ := shows_oid oid
  refine ⟨_, ?_, spells_member (by decide) (spells_members (by decide) (by decide)
    (spells_escape cs) hspells)⟩
  simp [jsonAppendValueDbPointer, jsonAppendEscaped_of_textChars h, htext, Appended.literal,
    spacedMembers, spacedObject, spacedMember, bracketed, joined, quoted]

theorem shows_code (h : textChars true s = some cs) :
    (jsonAppendValueCode s).Shows (jsonObject [("$code", jsonString cs)]) := by
  refine ⟨_, ?_, spells_member (by decide) (spells_escape cs)⟩
  simp [jsonAppendValueCode, jsonAppendEscaped_of_textChars h, Appended.literal, spacedMembers,
    spacedObject, spacedMember, bracketed, joined, quoted]

theorem shows_symbol (h : textChars true s = some cs) :
    (jsonAppendValueSymbol s).Shows (jsonObject [("$symbol", jsonString cs)]) := by
  refine ⟨_, ?_, spells_member (by decide) (spells_escape cs)⟩
  simp [jsonAppendValueSymbol, jsonAppendEscaped_of_textChars h, Appended.literal, spacedMembers,
    spacedObject, spacedMember, bracketed, joined, quoted]

theorem codeWScope_eq (h : textChars true s = some cs) (scope : List Char) :
    jsonAppendValueCodeWScope s ⟨utf8Bytes scope, true⟩ =
      ⟨utf8Bytes (spacedMembers [("$code", quoted (escape cs)), ("$scope", scope)]), true⟩ := by
  simp [jsonAppendValueCodeWScope, jsonAppendEscaped_of_textChars h, Appended.literal, chars,
    spacedMembers, spacedObject, spacedMember, bracketed, joined, quoted]

theorem shows_null : (literal "null").Shows .null := ⟨_, rfl, spells_word (by decide) rfl⟩

theorem shows_bool (b : Bool) : (literal (if b then "true" else "false")).Shows (.bool b) := by
  cases b <;> exact ⟨_, rfl, spells_word (by decide) rfl⟩

theorem shows_undefined : (literal "\x7b \"$undefined\" : true \x7d").Shows
    (jsonObject [("$undefined", .bool true)]) := by
  have htrue : Spells "true".toList (.bool true) := spells_word (by decide) rfl
  refine ⟨_, ?_, spells_member (by decide) htrue⟩
  rfl

theorem shows_maxKey : (literal "\x7b \"$maxKey\" : 1 \x7d").Shows
    (jsonObject [("$maxKey", integerJson 1)]) := by
  refine ⟨_, ?_, spells_member (by decide) (spells_number (isNumber_decimal 1))⟩
  rfl

theorem shows_minKey : (literal "\x7b \"$minKey\" : 1 \x7d").Shows
    (jsonObject [("$minKey", integerJson 1)]) := by
  refine ⟨_, ?_, spells_member (by decide) (spells_number (isNumber_decimal 1))⟩
  rfl

end Mongolite
