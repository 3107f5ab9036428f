import Mongolite.Bson.JsonOfBytes
import Mongolite.Bson.Shape

/-! # Rendering well-formed documents

The visits of a well-formed document append the JSON that it stands for, at every
depth. They fail exactly where some text is no UTF-8.
-/

namespace Mongolite

open Json Appended

variable {data rest s : List UInt8} {it it' : BsonIter} {v : BsonValue} {cs : List Char}
  {nested : Bool → Bson → Rendered} {hasKeys notFirstItem : Bool}

/-! ## Depth and texts -/

mutual

/-- How many levels a value has; an empty document or array has none. -/
def BsonValue.nesting : BsonValue → ℕ
  | .document es => es.nesting
  | .array es => es.nesting
  | .codeWScope _ scope => scope.nesting
  | _ => 0

def Elements.nesting : Elements → ℕ
  | .nil => 0
  | .cons _ value rest => max (value.nesting + 1) rest.nesting

end

mutual

/-- In patterns and collection names, whose zeros cannot be escaped, there are none. -/
def BsonValue.escapable : BsonValue → Bool
  | .document es => es.escapable
  | .array es => es.escapable
  | .codeWScope _ scope => scope.escapable
  | .regex pattern _ => bsonUtf8Validate true pattern.1 == bsonUtf8Validate false pattern.1
  | .dbPointer collection _ => bsonUtf8Validate true collection == bsonUtf8Validate false collection
  | _ => true

def Elements.escapable : Elements → Bool
  | .nil => true
  | .cons _ value rest => value.escapable && rest.escapable

end

/-! ## What the iterator reads -/

theorem d4_of_next (hnext : bsonIterNext it = (true, it')) (h : HoldsValue it' v rest)
    (hoff : 4 ≤ it.nextOff) (hlt : it'.data.length < 2 ^ 31) (hrest : rest ≠ []) :
    it'.d4 = (v.fields it'.d1).d4 := by
  obtain ⟨key, hmove⟩ := movesTo_of_next hnext
  have hd1 := hmove.d1_eq
  have hfields := hmove.fields
  rw [h.type_eq, ← hmove.data_eq, fields_value _ v (by omega) h.drop_eq hrest hlt] at hfields
  rw [Except.ok.inj hfields]

theorem errOff_of_next (hnext : bsonIterNext it = (true, it')) : it'.errOff = 0 := by
  unfold bsonIterNext at hnext
  split at hnext
  · simp at hnext
  · split at hnext
    · simp at hnext
    · split at hnext
      · simp at hnext
      · split_ifs at hnext
        · simp at hnext
        · rw [← (Prod.mk.inj hnext).2]

theorem drop_text (hdrop : it.data.drop it.d1 = encodeText s ++ rest) {o : ℕ} (ho : o = it.d1 + 4) :
    it.data.drop o = s ++ 0 :: rest := by
  rw [ho, ← List.drop_drop, hdrop, encodeText, List.append_assoc, drop_toBytes_append,
    List.append_assoc, List.singleton_append]

theorem readU32le_text (hlt : s.length + 1 < 2 ^ 32) :
    readU32le (encodeText s ++ rest) = s.length + 1 := by
  rw [encodeText, List.append_assoc, readU32le_toBytes _ hlt]

theorem bsonIterUtf8_eq (hdrop : it.data.drop it.d1 = encodeText s ++ rest)
    (hd2 : it.d2 = it.d1 + 4) (hlt : it.data.length < 2 ^ 31) (hrest : rest ≠ []) :
    bsonIterUtf8WithLen it = s := by
  have hlen := length_of_drop hdrop hrest
  rw [length_encodeText] at hlen
  have hread : bsonIterUtf8Len it = s.length := by
    rw [bsonIterUtf8Len, hdrop, readI32le, readU32le_text (by omega), toInt32_of_lt (by omega)]
    omega
  rw [bsonIterUtf8WithLen, hread, drop_text hdrop hd2, List.take_left]

theorem bsonIterBinary_eq {subtype : UInt8} {bytes : List UInt8}
    (h : HoldsValue it (.binary subtype bytes) rest) (hlt : it.data.length < 2 ^ 31)
    (hrest : rest ≠ []) : bsonIterBinary it = (subtype, bytes) := by
  have hconvert := convertBinary_of_holds h hlt hrest
  have heq : convertBinary it = .raw (bsonIterBinary it).2 (bsonIterBinary it).1 := by
    simp only [convertBinary, bsonIterBinary]
    split_ifs <;> rfl
  rw [heq, RValue.raw.injEq] at hconvert
  exact Prod.ext hconvert.2 hconvert.1

theorem bsonIterCollection_eq (hdrop : it.data.drop it.d1 = encodeText s ++ rest)
    (hd2 : it.d2 = it.d1 + 4) (hlt : it.data.length < 2 ^ 31) (hrest : rest ≠ []) :
    bsonIterCollection it = s := by
  have hlen := length_of_drop hdrop hrest
  rw [length_encodeText] at hlen
  rw [bsonIterCollection, hdrop, readU32le_text (by omega), Nat.add_sub_cancel,
    drop_text hdrop hd2, List.take_left]

theorem embedded_eq {es : Elements} (hdrop : it.data.drop it.d1 = encodeLevel es.encode ++ rest)
    (hlt : it.data.length < 2 ^ 31) (hrest : rest ≠ []) :
    ∃ hshort, it.embedded = (es.toBson hshort).bytes := by
  have hlen := length_of_drop hdrop hrest
  have hshort : (encodeLevel es.encode).length < 2 ^ 31 := by omega
  refine ⟨hshort, ?_⟩
  rw [BsonIter.embedded, hdrop, readU32le_encodeLevel rest hshort, List.take_left]
  rfl

theorem bsonIterCodeWScope_eq {source : List UInt8} {scope : Elements}
    (h : HoldsValue it (.codeWScope source scope) rest) (hd4 : it.d4 = it.d1 + source.length + 9)
    (hlt : it.data.length < 2 ^ 31) (hrest : rest ≠ []) :
    bsonIterCode it = source ∧ ∃ hshort, bsonIterScope it = (scope.toBson hshort).bytes := by
  have hdrop := h.drop_eq
  have hd2 : it.d2 = it.d1 + 4 := h.d2_eq
  have hd3 : it.d3 = it.d1 + 8 := h.d3_eq
  have hlen := length_of_drop hdrop hrest
  rw [BsonValue.encode, List.append_assoc, List.append_assoc] at hdrop
  simp only [BsonValue.encode, List.length_append, length_toBytes, length_encodeText] at hlen
  have hcode : it.data.drop it.d2 = encodeText source ++ (encodeLevel scope.encode ++ rest) := by
    rw [hd2, ← List.drop_drop, hdrop, drop_toBytes_append]
  have hscope : it.data.drop it.d4 = encodeLevel scope.encode ++ rest := by
    have hafter := drop_add_of_drop hcode
    rwa [length_encodeText, hd2, show it.d1 + 4 + (source.length + 5) = it.d4 by omega] at hafter
  have hshort : (encodeLevel scope.encode).length < 2 ^ 31 := by omega
  refine ⟨?_, hshort, ?_⟩
  · rw [bsonIterCode, hcode, readU32le_text (by omega), Nat.add_sub_cancel, hd3,
      show it.d1 + 8 = it.d2 + 4 by omega, ← List.drop_drop, hcode, encodeText, List.append_assoc,
      drop_toBytes_append, List.append_assoc, List.take_left]
  · rw [bsonIterScope, hscope, readU32le_encodeLevel rest hshort, List.take_left]
    rfl

/-! ## Visits -/

/-- A text for this value, or a failure where there is none. -/
def Rendered.Shows (r : Rendered) : Option Json → Prop
  | some v => ∃ text, r = ⟨utf8Bytes text, true⟩ ∧ Spells text v
  | none => r.valid = false

/-- A visit that goes on after a text for this value, or fails where there is none. -/
def Visited.Shows (x : Visited) : Option Json → Prop
  | some v => ∃ text, x = .next (utf8Bytes text) false ∧ Spells text v
  | none => ∃ text, x = .stop text false

theorem shows_visited {a : Appended} {v : Json} (h : a.Shows v) : (visited a).Shows (some v) := by
  obtain ⟨text, rfl, hspells⟩ := h
  exact ⟨text, rfl, hspells⟩

theorem validate_of_textChars {allowNull : Bool} (h : textChars allowNull s = some cs) :
    bsonUtf8Validate allowNull s = true :=
  (validate_iff_spells allowNull s).mpr ⟨cs, textChars_eq_some_iff.mp h⟩

theorem not_validate_of_textChars {allowNull : Bool} (h : textChars allowNull s = none) :
    bsonUtf8Validate allowNull s = false := by
  rw [← Bool.not_eq_true, validate_iff_spells]
  rintro ⟨cs, hspells⟩
  rw [textChars_eq_some_iff.mpr hspells] at h
  cases h

theorem shows_visitedText {allowNull : Bool} {a : Appended} {f : List Char → Json}
    (hvalid : bsonUtf8Validate true s = bsonUtf8Validate allowNull s)
    (h : ∀ cs, textChars allowNull s = some cs → a.Shows (f cs)) :
    (visitedText s a).Shows ((textChars allowNull s).map f) := by
  unfold visitedText
  rw [hvalid]
  cases hchars : textChars allowNull s with
  | some cs =>
    rw [if_pos (validate_of_textChars hchars)]
    exact shows_visited (h cs hchars)
  | none =>
    rw [not_validate_of_textChars hchars]
    exact ⟨[], rfl⟩

theorem shows_visitedContainer {r : Rendered} {v : Option Json} (h : r.Shows v) :
    (visitedContainer r).Shows v := by
  cases v with
  | some v =>
    obtain ⟨text, rfl, hspells⟩ := h
    exact ⟨text, rfl, hspells⟩
  | none =>
    have hvalid : r.valid = false := h
    exact ⟨r.text, by simp [visitedContainer, hvalid]⟩

theorem shows_visitedEmbedded {bytes : List UInt8} {f : Bson → Rendered} {b : Bson}
    {v : Option Json} (hbytes : bytes = b.bytes) (h : (f b).Shows v) :
    (visitedEmbedded bytes f).Shows v := by
  rw [visitedEmbedded, hbytes, bsonInitStatic_bytes]
  exact shows_visitedContainer h

theorem shows_codeWScope (h : textChars true s = some cs) {r : Rendered}
    {ms : Option (List (List ℕ × Json))} (hr : r.Shows (ms.map Json.object)) :
    (jsonAppendValueCodeWScope s r).Shows (((some cs).map jsonString).bind fun v =>
      ms.map fun ms => jsonObject [("$code", v), ("$scope", .object ms)]) := by
  cases ms with
  | none => exact hr
  | some ms =>
    obtain ⟨text, rfl, hspells⟩ := hr
    exact ⟨_, codeWScope_eq h text,
      spells_members (by decide) (by decide) (spells_escape cs) hspells⟩

/-- Embedded documents and arrays are rendered as this says. -/
def NestedShows (nested : Bool → Bson → Rendered) (es : Elements) : Prop :=
  ∀ hshort, (nested true (es.toBson hshort)).Shows (es.toMembers.map Json.object) ∧
    (nested false (es.toBson hshort)).Shows
      (es.toMembers.map fun ms => Json.array (ms.map Prod.snd))

def BsonValue.inner : BsonValue → Option Elements
  | .document es | .array es | .codeWScope _ es => some es
  | _ => none

theorem shows_visitValue (hnext : bsonIterNext it = (true, it')) (h : HoldsValue it' v rest)
    (hoff : 4 ≤ it.nextOff) (hlt : it'.data.length < 2 ^ 31) (hrest : rest ≠ [])
    (hescapable : v.escapable = true) (hnested : ∀ es ∈ v.inner, NestedShows nested es) :
    (visitValue nested it').Shows v.toJson := by
  have htype := h.type_eq
  have hdrop := h.drop_eq
  have hd2 := h.d2_eq
  have hd3 := h.d3_eq
  cases v with
  | double bits =>
    simp only [visitValue, htype, BsonValue.type, hdrop, BsonValue.encode,
      take_append_of_length bits.2, BsonValue.toJson]
    exact shows_visited (shows_double _)
  | utf8 s =>
    simp only [visitValue, htype, BsonValue.type, bsonIterUtf8_eq hdrop hd2 hlt hrest,
      BsonValue.toJson]
    exact shows_visitedText rfl fun cs hcs => shows_utf8 hcs
  | document es =>
    obtain ⟨hshort, hembedded⟩ := embedded_eq hdrop hlt hrest
    simp only [visitValue, htype, BsonValue.type, BsonValue.toJson]
    exact shows_visitedEmbedded hembedded (hnested es rfl hshort).1
  | array es =>
    obtain ⟨hshort, hembedded⟩ := embedded_eq hdrop hlt hrest
    simp only [visitValue, htype, BsonValue.type, BsonValue.toJson]
    exact shows_visitedEmbedded hembedded (hnested es rfl hshort).2
  | binary subtype bytes =>
    simp only [visitValue, htype, BsonValue.type, bsonIterBinary_eq h hlt hrest, BsonValue.toJson]
    exact shows_visited (shows_binary _ _)
  | undefined =>
    simp only [visitValue, htype, BsonValue.type, BsonValue.toJson]
    exact shows_visited shows_undefined
  | oid bytes =>
    simp only [visitValue, htype, BsonValue.type, hdrop, BsonValue.encode,
      take_append_of_length bytes.2, BsonValue.toJson]
    exact shows_visited (shows_oid _)
  | bool b =>
    have hval : byteAt it'.data it'.d1 = if b then 1 else 0 := by
      have hat := byteAt_add it'.data it'.d1 0
      rw [Nat.add_zero, hdrop] at hat
      exact hat
    have hone : ((if b then 1 else 0 : UInt8) ≠ 0) ↔ b = true := by cases b <;> decide
    simp only [visitValue, htype, BsonValue.type, hval, hone, BsonValue.toJson]
    exact shows_visited (shows_bool b)
  | dateTime bits =>
    simp only [visitValue, htype, BsonValue.type, hdrop, BsonValue.encode,
      readI64le_append bits.2.ge, BsonValue.toJson]
    exact shows_visited (shows_dateTime _)
  | null =>
    simp only [visitValue, htype, BsonValue.type, BsonValue.toJson]
    exact shows_visited shows_null
  | regex pattern options =>
    have hsplit : it'.data.drop it'.d1 = pattern.1 ++ 0 :: (options.1 ++ 0 :: rest) := by
      rw [hdrop, BsonValue.encode]
      simp
    have hpattern : cString (it'.data.drop it'.d1) = pattern.1 := by
      rw [hsplit, cString_append_zero, cString_of_not_mem pattern.2]
    have hoptions : cString (it'.data.drop it'.d2) = options.1 := by
      have hd2' : it'.d2 = it'.d1 + (pattern.1 ++ [0]).length := by
        rw [hd2, List.length_append, List.length_singleton]
        rfl
      have hsplit' : it'.data.drop it'.d1 = (pattern.1 ++ [0]) ++ (options.1 ++ 0 :: rest) := by
        rw [hsplit, List.append_assoc, List.singleton_append]
      rw [hd2', drop_add_of_drop hsplit', cString_append_zero, cString_of_not_mem options.2]
    rw [BsonValue.escapable, beq_iff_eq] at hescapable
    simp only [visitValue, htype, BsonValue.type, hpattern, hoptions, BsonValue.toJson]
    exact shows_visitedText hescapable fun cs hcs => shows_regex hcs options.1
  | dbPointer collection oid =>
    rw [BsonValue.encode, List.append_assoc] at hdrop
    have hoid : (it'.data.drop it'.d3).take 12 = oid.1 := by
      have hd3' : it'.d3 = it'.d1 + (encodeText collection).length := hd3
      rw [hd3', drop_add_of_drop hdrop, take_append_of_length oid.2]
    rw [BsonValue.escapable, beq_iff_eq] at hescapable
    simp only [visitValue, htype, BsonValue.type, hoid, BsonValue.toJson,
      bsonIterCollection_eq hdrop hd2 hlt (List.append_ne_nil_of_right_ne_nil _ hrest)]
    exact shows_visitedText hescapable fun cs hcs => shows_dbPointer hcs oid.1
  | code s =>
    simp only [visitValue, htype, BsonValue.type, bsonIterUtf8_eq hdrop hd2 hlt hrest,
      BsonValue.toJson, textJson, Option.map_map]
    exact shows_visitedText rfl fun cs hcs => shows_code hcs
  | symbol s =>
    simp only [visitValue, htype, BsonValue.type, bsonIterUtf8_eq hdrop hd2 hlt hrest,
      BsonValue.toJson, textJson, Option.map_map]
    exact shows_visitedText rfl fun cs hcs => shows_symbol hcs
  | codeWScope source scope =>
    have hd4 := d4_of_next hnext h hoff hlt hrest
    simp only [BsonValue.fields, length_encodeText] at hd4
    obtain ⟨hcode, hshort, hscope⟩ := bsonIterCodeWScope_eq h (by omega) hlt hrest
    simp only [visitValue, htype, BsonValue.type, hcode, BsonValue.toJson, textJson]
    cases hchars : textChars true source with
    | none =>
      rw [not_validate_of_textChars hchars]
      exact ⟨[], rfl⟩
    | some cs =>
      rw [if_pos (validate_of_textChars hchars)]
      exact shows_visitedEmbedded hscope (shows_codeWScope hchars (hnested scope rfl hshort).1)
  | int32 bits =>
    simp only [visitValue, htype, BsonValue.type, hdrop, BsonValue.encode,
      readI32le_append bits.2.ge, BsonValue.toJson]
    exact shows_visited (shows_integer _)
  | timestamp bits =>
    have hfour : it'.data.drop (it'.d1 + 4) = bits.1.drop 4 ++ rest := by
      rw [← List.drop_drop, hdrop, BsonValue.encode,
        List.drop_append_of_le_length (by rw [bits.2]; decide)]
    simp only [visitValue, htype, BsonValue.type, hdrop, hfour, BsonValue.encode,
      readU32le_append (show 4 ≤ bits.1.length by rw [bits.2]; decide),
      readU32le_append (show 4 ≤ (bits.1.drop 4).length by rw [List.length_drop, bits.2]),
      BsonValue.toJson]
    exact shows_visited (shows_timestamp _ _)
  | int64 bits =>
    simp only [visitValue, htype, BsonValue.type, hdrop, BsonValue.encode,
      readI64le_append bits.2.ge, BsonValue.toJson]
    exact shows_visited (shows_integer _)
  | decimal128 bits =>
    have hdec : bsonIterDecimal128 it' = decimal128OfBytes bits.1 := by
      have height : (bits.1.drop 8).length = 8 := by rw [List.length_drop, bits.2]
      rw [bsonIterDecimal128, ← List.drop_drop, hdrop, BsonValue.encode,
        List.drop_append_of_le_length (by rw [bits.2]; decide), take_append_of_length height,
        List.take_append_of_le_length (by rw [bits.2]; decide), decimal128OfBytes,
        List.take_of_length_le height.le]
    simp only [visitValue, htype, BsonValue.type, hdec, BsonValue.toJson]
    exact shows_visited (shows_decimal128 _)
  | maxKey =>
    simp only [visitValue, htype, BsonValue.type, BsonValue.toJson]
    exact shows_visited shows_maxKey
  | minKey =>
    simp only [visitValue, htype, BsonValue.type, BsonValue.toJson]
    exact shows_visited shows_minKey

/-! ## Runs over the elements -/

def beforeValue (hasKeys notFirstItem : Bool) (key : List Char) : List Char :=
  (if notFirstItem then [',', ' '] else []) ++
    if hasKeys then quoted (escape key) ++ [' ', ':', ' '] else []

theorem visitBefore_eq (h : textChars false s = some cs) :
    jsonAppendVisitBefore hasKeys notFirstItem s = chars (beforeValue hasKeys notFirstItem cs) := by
  have hempty : (⟨[], true⟩ : Appended) = chars [] := rfl
  simp only [jsonAppendVisitBefore, beforeValue, jsonAppendKey_eq h, Appended.literal, hempty]
  cases hasKeys <;> cases notFirstItem <;> simp

theorem visitAll_of_key (hnext : bsonIterNext it = (true, it'))
    (hkey : textChars false (bsonIterKey it') = some cs) :
    bsonIterVisitAll nested hasKeys notFirstItem it =
      match visitValue nested it' with
      | .stop text valid => ⟨utf8Bytes (beforeValue hasKeys notFirstItem cs) ++ text, valid⟩
      | .next text marked =>
        let rest := bsonIterVisitAll nested hasKeys true
          { it' with errOff := if marked then it'.off else it'.errOff }
        ⟨utf8Bytes (beforeValue hasKeys notFirstItem cs) ++ (text ++ rest.text), rest.valid⟩ := by
  have hvalid := validate_of_textChars hkey
  rw [visitAll_next hnext, if_neg (by simp [hvalid]), visitBefore_eq hkey]
  rfl

/-- The text of an element: of its value, after its key where there are keys. -/
def ItemSpells (hasKeys : Bool) (item : List Char) (m : List ℕ × Json) : Prop :=
  if hasKeys then SpellsMember item m else Spells item m.2

theorem itemSpells_of_spells {text : List Char} {w : Json} (h : Spells text w) :
    ItemSpells hasKeys (beforeValue hasKeys false cs ++ text) (cs.map Char.toNat, w) := by
  cases hasKeys with
  | false => exact h
  | true =>
    have htext : beforeValue true false cs ++ text = spacedMember (quoted (escape cs)) text := by
      simp [beforeValue, spacedMember]
    rw [htext]
    exact ⟨_, _, rfl, ⟨_, rfl, stringBody_escape cs⟩, h⟩

def Rendered.ShowsItems (r : Rendered) (hasKeys notFirstItem : Bool) :
    Option (List (List ℕ × Json)) → Prop
  | some ms => ∃ items, r = ⟨utf8Bytes (separated notFirstItem items), true⟩ ∧
      List.Forall₂ (ItemSpells hasKeys) items ms
  | none => r.valid = false

theorem end_errOff (hraw : it.raw = some data) (hdrop : data.drop it.nextOff = [0])
    (hnext : bsonIterNext it = (false, it')) : it'.errOff = it.errOff := by
  have hnil : data.drop (it.nextOff + 1) = [] := by
    rw [← List.tail_drop, hdrop, List.tail_cons]
  have hnone : findZero data (it.nextOff + 1) = none := by
    rw [findZero, hnil]
    rfl
  simp only [bsonIterNext, hraw, hnone] at hnext
  rw [← (Prod.mk.inj hnext).2]
  rfl

theorem shows_visitAll (es : Elements) {it : BsonIter} {notFirstItem : Bool}
    (hraw : it.raw = some data) (hoff : 4 ≤ it.nextOff) (hlt : data.length < 2 ^ 31)
    (hdrop : data.drop it.nextOff = es.encode ++ [0])
    (herr : it.errOff = 0) (hescapable : es.escapable = true)
    (hnested : ∀ fs : Elements, fs.nesting + 1 ≤ es.nesting → fs.escapable = true →
      NestedShows nested fs) :
    (bsonIterVisitAll nested hasKeys notFirstItem it).ShowsItems hasKeys notFirstItem
      es.toMembers := by
  match es with
  | .nil =>
    obtain ⟨it', hnext⟩ := next_at_end hraw hdrop
    rw [visitAll_stop hnext, end_errOff hraw hdrop hnext, herr]
    exact ⟨[], rfl, .nil⟩
  | .cons key v es =>
    have hsplit : data.drop it.nextOff =
        v.type.byte :: (key.1 ++ 0 :: (v.encode ++ (es.encode ++ [0]))) := by
      rw [hdrop, Elements.encode]
      simp
    obtain ⟨it', hnext, hraw', hkey, hholds, hd1, hnextOff⟩ :=
      next_of_element hraw hoff hlt hsplit (by simp)
    have hdata : it'.data = data := by rw [BsonIter.data, hraw', Option.getD_some]
    rw [Elements.escapable, Bool.and_eq_true] at hescapable
    rw [Elements.nesting] at hnested
    have hvalue : (visitValue nested it').Shows v.toJson := by
      refine shows_visitValue hnext hholds hoff (hdata ▸ hlt) (by simp) hescapable.1 ?_
      intro fs hfs
      have hinner : fs.nesting = v.nesting ∧ fs.escapable = v.escapable := by
        cases v <;> cases hfs <;> exact ⟨by rw [BsonValue.nesting], by rw [BsonValue.escapable]⟩
      exact hnested fs (hinner.1 ▸ le_max_left _ _) (hinner.2 ▸ hescapable.1)
    have hrest : (bsonIterVisitAll nested hasKeys true it').ShowsItems hasKeys true
        es.toMembers := by
      have htail : data.drop it'.nextOff = es.encode ++ [0] := by
        rw [hnextOff, ← hdata]
        exact drop_add_of_drop hholds.drop_eq
      exact shows_visitAll es hraw' (by omega) hlt htail (errOff_of_next hnext) hescapable.2
        fun fs hfs => hnested fs (hfs.trans (le_max_right _ _))
    rw [Elements.toMembers, ← hkey]
    cases hchars : textChars false (bsonIterKey it') with
    | none =>
      have hinvalid := not_validate_of_textChars hchars
      have hne : bsonIterKey it' ≠ [] := by
        intro hnil
        rw [hnil] at hinvalid
        simp [bsonUtf8Validate] at hinvalid
      rw [visitAll_next hnext, if_pos ⟨hne, hinvalid⟩]
      rfl
    | some cs =>
      rw [visitAll_of_key hnext hchars, Option.bind_some]
      cases hjson : v.toJson with
      | none =>
        rw [hjson] at hvalue
        obtain ⟨text, hstop⟩ := hvalue
        rw [hstop]
        rfl
      | some w =>
        rw [hjson] at hvalue
        obtain ⟨text, htext, hspells⟩ := hvalue
        have hitem : ItemSpells hasKeys (beforeValue hasKeys false cs ++ text)
            (cs.map Char.toNat, w) := itemSpells_of_spells hspells
        simp only [htext, Option.bind_some, Bool.false_eq_true, if_false]
        cases hms : es.toMembers with
        | none =>
          rw [hms] at hrest
          exact hrest
        | some ms =>
          rw [hms] at hrest
          obtain ⟨items, heq, hitems⟩ := hrest
          refine ⟨(beforeValue hasKeys false cs ++ text) :: items, ?_, .cons hitem hitems⟩
          rw [heq]
          simp [separated, beforeValue]

/-! ## Containers -/

theorem bsonEmpty_cons {key : CString} {v : BsonValue} {es : Elements}
    (hshort : (encodeLevel (Elements.cons key v es).encode).length < 2 ^ 31) :
    bsonEmpty ((Elements.cons key v es).toBson hshort) = false := by
  have hlen : ((Elements.cons key v es).toBson hshort).bytes.length ≠ 5 := by
    simp only [Elements.toBson, length_encodeLevel, Elements.encode, List.length_cons]
    omega
  have hbyte : byteAt ((Elements.cons key v es).toBson hshort).bytes 4 = v.type.byte := by
    have hat := byteAt_append (toBytes 4 ((Elements.cons key v es).encode.length + 5)) v.type.byte
      (key.1 ++ 0 :: (v.encode ++ es.encode) ++ [0])
    rw [length_toBytes] at hat
    rw [← hat]
    simp [Elements.toBson, encodeLevel, Elements.encode]
  have hne : v.type.byte ≠ 0 := by cases v <;> exact of_decide_eq_true rfl
  simp [bsonEmpty, hlen, hbyte, hne]

theorem bracketed_eq {items : List (List Char)} (h : items ≠ []) (opening close : Char) :
    bracketed opening close items = opening :: ' ' :: (separated false items ++ [' ', close]) := by
  rw [bracketed, if_neg h, joined_eq_separated]

theorem ne_nil_of_toMembers {key : CString} {v : BsonValue} {es : Elements}
    {ms : List (List ℕ × Json)} (h : (Elements.cons key v es).toMembers = some ms) : ms ≠ [] := by
  simp only [Elements.toMembers, Option.bind_eq_some_iff, Option.map_eq_some_iff] at h
  obtain ⟨-, -, -, -, -, -, rfl⟩ := h
  exact List.cons_ne_nil _ _

theorem shows_nonEmpty {r r' : Rendered} {ms : Option (List (List ℕ × Json))}
    (hr : r.ShowsItems true false ms) (hr' : r'.ShowsItems false false ms)
    (hne : ∀ ms' ∈ ms, ms' ≠ []) :
    (jsonAppendNonEmpty documentTexts r).Shows (ms.map Json.object) ∧
      (jsonAppendNonEmpty arrayTexts r').Shows (ms.map fun ms => Json.array (ms.map Prod.snd)) := by
  cases ms with
  | none => exact ⟨hr, hr'⟩
  | some ms =>
    obtain ⟨items, rfl, hitems⟩ := hr
    obtain ⟨items', rfl, hitems'⟩ := hr'
    have hms := hne ms rfl
    have hitems_ne : items ≠ [] := by
      rintro rfl
      exact hms (List.forall₂_nil_left_iff.mp hitems)
    have hitems_ne' : items' ≠ [] := by
      rintro rfl
      exact hms (List.forall₂_nil_left_iff.mp hitems')
    have hvalues : List.Forall₂ Spells items' (ms.map Prod.snd) :=
      List.forall₂_map_right_iff.mpr hitems'
    refine ⟨⟨_, ?_, spells_spacedObject hitems⟩, ⟨_, ?_, spells_spacedArray hvalues⟩⟩
    · simp [jsonAppendNonEmpty, Appended.literal, chars, documentTexts, spacedObject,
        bracketed_eq hitems_ne]
    · simp [jsonAppendNonEmpty, Appended.literal, chars, arrayTexts, spacedArray,
        bracketed_eq hitems_ne']

theorem shows_empty (depth : ℕ) : NestedShows (jsonAppendBsonContainer depth) .nil := by
  intro hshort
  have hempty : bsonEmpty (Elements.nil.toBson hshort) = true := by
    simp [bsonEmpty, Elements.toBson, Elements.encode]
  have hdocument : Spells "\x7b \x7d".toList (.object []) := spells_spacedObject .nil
  have harray : Spells "[ ]".toList (.array []) := spells_spacedArray .nil
  cases depth <;>
    simp only [jsonAppendBsonContainer, hempty, Elements.toMembers, if_true] <;>
    exact ⟨⟨_, rfl, hdocument⟩, ⟨_, rfl, harray⟩⟩

/-- Documents and arrays that are nested no more deeply than the limit are rendered in full. -/
theorem shows_container (depth : ℕ) (es : Elements) (hdepth : es.nesting ≤ depth)
    (hescapable : es.escapable = true) : NestedShows (jsonAppendBsonContainer depth) es := by
  induction depth generalizing es with
  | zero =>
    cases es with
    | nil => exact shows_empty 0
    | cons key v es =>
      rw [Elements.nesting] at hdepth
      omega
  | succ depth ih =>
    cases es with
    | nil => exact shows_empty (depth + 1)
    | cons key v es =>
      intro hshort
      have hitems (hasKeys : Bool) :
          (bsonIterVisitAll (jsonAppendBsonContainer depth) hasKeys false
            (bsonIterInit ((Elements.cons key v es).toBson hshort))).ShowsItems hasKeys false
            (Elements.cons key v es).toMembers :=
        shows_visitAll _ rfl (Nat.le_refl 4) hshort (drop_encodeLevel _) rfl hescapable
          fun fs hfs => ih fs (by omega)
      simp only [jsonAppendBsonContainer, bsonEmpty_cons, Bool.false_eq_true, if_false, if_true]
      exact shows_nonEmpty (hitems true) (hitems false) fun ms hms => ne_nil_of_toMembers hms

/-- A well-formed document of less than 128 MiB, nested no more deeply than the limit, becomes a
text that a reader of JSON takes for the object that the document stands for, or `NULL` if a key or
a text in it is no UTF-8. -/
theorem relaxedJson_toBson (es : Elements) (hsize : (encodeLevel es.encode).length < 2 ^ 27)
    (hdepth : es.nesting ≤ bsonMaxRecursion) (hescapable : es.escapable = true) :
    (∃ ms text, es.toMembers = some ms ∧
      bsonAsRelaxedExtendedJson (es.toBson (hsize.trans (by decide))) = .text (utf8Bytes text) ∧
        parse text = some (.object ms)) ∨
      (es.toMembers = none ∧
        bsonAsRelaxedExtendedJson (es.toBson (hsize.trans (by decide))) = .null) := by
  have hshort := hsize.trans (show 2 ^ 27 < 2 ^ 31 by decide)
  have hshows := (shows_container bsonMaxRecursion es hdepth hescapable hshort).1
  rw [bsonAsRelaxedExtendedJson_eq (b := es.toBson hshort) hsize]
  cases hms : es.toMembers with
  | some ms =>
    rw [hms] at hshows
    obtain ⟨text, heq, hspells⟩ := hshows
    exact .inl ⟨ms, text, rfl, by rw [heq]; rfl, parse_of_spells hspells⟩
  | none =>
    rw [hms] at hshows
    have hinvalid : (jsonAppendBsonContainer bsonMaxRecursion true (es.toBson hshort)).valid =
      false := hshows
    exact .inr ⟨rfl, by rw [hinvalid]; rfl⟩

/-- `{"a": "\"x\"\n", "b": {"c": [1, true]}, "d": null}`; the text of `a` has to be escaped. -/
def mixedDocument : Elements :=
  .cons (.ofBytes [0x61]) (.utf8 [0x22, 0x78, 0x22, 0x0A])
    (.cons (.ofBytes [0x62])
      (.document (.cons (.ofBytes [0x63])
        (.array (.cons (.ofBytes [0x30]) (.ofInt32 1)
          (.cons (.ofBytes [0x31]) (.bool true) .nil))) .nil))
      (.cons (.ofBytes [0x64]) .null .nil))

def mixedMembers : List (List ℕ × Json) :=
  [([97], .string [34, 120, 34, 10]),
    ([98], .object [([99], .array [.number ['1'], .bool true])]), ([100], .null)]

theorem relaxedJson_mixedDocument : ∃ text,
    bsonAsRelaxedExtendedJson (mixedDocument.toBson (by decide)) = .text (utf8Bytes text) ∧
      parse text = some (.object mixedMembers) := by
  have hmembers : mixedDocument.toMembers = some mixedMembers := rfl
  rcases relaxedJson_toBson mixedDocument (by decide) (by decide) (by decide) with
    ⟨ms, text, hms, htext, hparse⟩ | ⟨hnone, -⟩
  · rw [hmembers] at hms
    obtain rfl := Option.some.inj hms
    exact ⟨text, htext, hparse⟩
  · rw [hmembers] at hnone
    cases hnone

end Mongolite
