import Mongolite.Bson.Grammar
import Mongolite.Bson.Step

/-! # Where the iterator finds a value

In bytes that hold a value of the grammar and go on after it, the iterator finds
the fields of the value where the grammar puts them, and the end of the value.
-/

namespace Mongolite

variable {data rest s : List UInt8} {start o : ℕ}

def BsonValue.fields (o : ℕ) : BsonValue → Fields
  | .utf8 s => ⟨o + 4, 0, 0, o + (encodeText s).length⟩
  | .code s => ⟨o + 4, 0, 0, o + (encodeText s).length⟩
  | .symbol s => ⟨o + 4, 0, 0, o + (encodeText s).length⟩
  | .binary subtype bytes => ⟨o + 4, o + 5, 0, o + (encodeBinary subtype bytes).length⟩
  | .regex pattern options =>
    ⟨o + pattern.1.length + 1, 0, 0, o + pattern.1.length + 1 + options.1.length + 1⟩
  | .dbPointer collection _ =>
    ⟨o + 4, o + (encodeText collection).length, 0, o + (encodeText collection).length + 12⟩
  | .codeWScope source scope =>
    ⟨o + 4, o + 8, o + 4 + (encodeText source).length,
      o + 4 + (encodeText source).length + (encodeLevel scope.encode).length⟩
  | v => ⟨0, 0, 0, o + v.encode.length⟩

theorem byteAt_add (data : List UInt8) (o k : ℕ) :
    byteAt data (o + k) = byteAt (data.drop o) k := by
  rw [byteAt, byteAt, List.getD_eq_getElem?_getD, List.getD_eq_getElem?_getD, List.getElem?_drop]

theorem byteAt_append (p : List UInt8) (b : UInt8) (rest : List UInt8) :
    byteAt (p ++ b :: rest) p.length = b := by
  simp [byteAt]

theorem length_of_drop {p : List UInt8} (hdrop : data.drop o = p ++ rest) (hrest : rest ≠ []) :
    data.length = o + p.length + rest.length := by
  have hlen := congrArg List.length hdrop
  have hpos := List.length_pos_iff.mpr hrest
  rw [List.length_drop, List.length_append] at hlen
  omega

theorem drop_add_of_drop {p : List UInt8} (hdrop : data.drop o = p ++ rest) :
    data.drop (o + p.length) = rest := by
  rw [← List.drop_drop, hdrop, List.drop_left]

theorem fields_text (hdrop : data.drop o = encodeText s ++ rest) (hrest : rest ≠ [])
    (hlt : data.length < 2 ^ 31) :
    elementFields data start o (some .utf8) =
      .ok ⟨o + 4, 0, 0, o + (encodeText s).length⟩ := by
  have hlen := length_of_drop hdrop hrest
  have hpos := List.length_pos_iff.mpr hrest
  rw [length_encodeText] at hlen ⊢
  have hread : readU32le (data.drop o) = s.length + 1 := by
    rw [hdrop, encodeText, List.append_assoc, readU32le_toBytes _ (by omega)]
  have hzero : byteAt data (o + 4 + (s.length + 1) - 1) = 0 := by
    have hlast := byteAt_append (toBytes 4 (s.length + 1) ++ s) 0 rest
    rw [List.length_append, length_toBytes] at hlast
    rw [show o + 4 + (s.length + 1) - 1 = o + (4 + s.length) by omega, byteAt_add, hdrop,
      ← hlast]
    simp [encodeText]
  simp only [elementFields, hread, hzero]
  rw [if_neg (by omega), if_neg (by omega), if_neg (by omega), if_neg (by simp)]
  simp only [Except.ok.injEq, Fields.mk.injEq, true_and]
  omega

theorem fields_level {es : List UInt8} (hdrop : data.drop o = encodeLevel es ++ rest)
    (hrest : rest ≠ []) (hlt : data.length < 2 ^ 31) :
    elementFields data start o (some .document) =
      .ok ⟨0, 0, 0, o + (encodeLevel es).length⟩ := by
  have hlen := length_of_drop hdrop hrest
  have hpos := List.length_pos_iff.mpr hrest
  have hread : readU32le (data.drop o) = (encodeLevel es).length := by
    rw [hdrop, readU32le_encodeLevel rest (by omega)]
  rw [length_encodeLevel] at hlen hread ⊢
  simp only [elementFields, hread]
  rw [if_neg (by omega), if_neg (by omega)]

theorem fields_binary {subtype : UInt8} {bytes : List UInt8}
    (hdrop : data.drop o = encodeBinary subtype bytes ++ rest) (hrest : rest ≠ [])
    (hlt : data.length < 2 ^ 31) :
    elementFields data start o (some .binary) =
      .ok ⟨o + 4, o + 5, 0, o + (encodeBinary subtype bytes).length⟩ := by
  have hlen := length_of_drop hdrop hrest
  have hpos := List.length_pos_iff.mpr hrest
  unfold encodeBinary at hdrop hlen ⊢
  split_ifs at hdrop hlen ⊢ with hsub
  · simp only [List.length_append, List.length_cons, length_toBytes] at hlen ⊢
    have hread : readU32le (data.drop o) = bytes.length + 4 := by
      rw [hdrop, List.append_assoc, readU32le_toBytes _ (by omega)]
    have hsubtype : byteAt data (o + 4) = bsonSubtypeBinaryDeprecated := by
      rw [byteAt_add, hdrop, ← hsub, List.append_assoc]
      exact byteAt_append (toBytes 4 (bytes.length + 4)) subtype _
    have hinner : readI32le (data.drop (o + 5)) = bytes.length := by
      have hdrop' : data.drop (o + 5) = toBytes 4 bytes.length ++ (bytes ++ rest) := by
        rw [← List.drop_drop, hdrop]
        simp [List.drop_append]
      rw [hdrop', readI32le, readU32le_toBytes _ (by omega), toInt32_of_lt (by omega)]
    simp only [elementFields, hread, hsubtype, hinner]
    rw [if_neg (by omega), if_neg (by omega), if_pos trivial, if_neg (by omega), if_neg (by omega)]
    simp only [Except.ok.injEq, Fields.mk.injEq, true_and]
    omega
  · simp only [List.length_append, List.length_cons, length_toBytes] at hlen ⊢
    have hread : readU32le (data.drop o) = bytes.length := by
      rw [hdrop, List.append_assoc, readU32le_toBytes _ (by omega)]
    have hsubtype : byteAt data (o + 4) ≠ bsonSubtypeBinaryDeprecated := by
      have hat := byteAt_append (toBytes 4 bytes.length) subtype (bytes ++ rest)
      rw [length_toBytes] at hat
      rw [byteAt_add, hdrop, List.append_assoc, List.cons_append, hat]
      exact hsub
    simp only [elementFields, hread]
    rw [if_neg (by omega), if_neg (by omega), if_neg hsubtype]
    simp only [Except.ok.injEq, Fields.mk.injEq, true_and]
    omega

theorem fields_bool {b : Bool} (hdrop : data.drop o = (if b then 1 else 0) :: rest)
    (hrest : rest ≠ []) : elementFields data start o (some .bool) = .ok ⟨0, 0, 0, o + 1⟩ := by
  have hlen := length_of_drop (p := [if b then 1 else 0]) hdrop hrest
  have hval : byteAt data o = if b then 1 else 0 := by
    have hat := byteAt_add data o 0
    rw [Nat.add_zero, hdrop] at hat
    exact hat
  rw [List.length_singleton] at hlen
  simp only [elementFields, hval]
  rw [if_neg (by omega), if_neg (by cases b <;> decide)]

theorem findZero_of_drop {key : List UInt8} (hkey : 0 ∉ key)
    (hdrop : data.drop o = key ++ 0 :: rest) : findZero data o = some (o + key.length) := by
  have hle : o ≤ data.length := by
    have hlen := congrArg List.length hdrop
    simp only [List.length_drop, List.length_append, List.length_cons] at hlen
    omega
  have h := findZero_append (data.take o) rest hkey
  rwa [← hdrop, List.take_append_drop, List.length_take_of_le hle] at h

theorem fields_regex {pattern options : CString}
    (hdrop : data.drop o = pattern.1 ++ 0 :: (options.1 ++ 0 :: rest)) :
    elementFields data start o (some .regex) =
      .ok ⟨o + pattern.1.length + 1, 0, 0,
        o + pattern.1.length + 1 + options.1.length + 1⟩ := by
  have hfirst := findZero_of_drop pattern.2 hdrop
  have hnext : data.drop (o + pattern.1.length + 1) = options.1 ++ 0 :: rest := by
    have hsplit : data.drop o = (pattern.1 ++ [0]) ++ (options.1 ++ 0 :: rest) := by
      simpa using hdrop
    have h := drop_add_of_drop hsplit
    rwa [List.length_append, List.length_singleton, ← Nat.add_assoc] at h
  have hsecond := findZero_of_drop options.2 hnext
  simp only [elementFields, hfirst, hsecond]

theorem fields_dbPointer {collection : List UInt8} {oid : Bytes 12}
    (hdrop : data.drop o = encodeText collection ++ (oid.1 ++ rest)) (hrest : rest ≠ [])
    (hlt : data.length < 2 ^ 31) :
    elementFields data start o (some .dbPointer) =
      .ok ⟨o + 4, o + (encodeText collection).length, 0,
        o + (encodeText collection).length + 12⟩ := by
  have hrest' : oid.1 ++ rest ≠ [] := by simp [hrest]
  have hlen := length_of_drop hdrop hrest'
  have hpos := List.length_pos_iff.mpr hrest
  rw [length_encodeText, List.length_append, oid.2] at hlen
  rw [length_encodeText]
  have hread : readU32le (data.drop o) = collection.length + 1 := by
    rw [hdrop, encodeText, List.append_assoc, readU32le_toBytes _ (by omega)]
  have hzero : byteAt data (o + (collection.length + 1) + 3) = 0 := by
    have hlast := byteAt_append (toBytes 4 (collection.length + 1) ++ collection) 0
      (oid.1 ++ rest)
    rw [List.length_append, length_toBytes] at hlast
    rw [show o + (collection.length + 1) + 3 = o + (4 + collection.length) by omega, byteAt_add,
      hdrop, ← hlast]
    simp [encodeText]
  simp only [elementFields, hread, hzero]
  rw [if_neg (by omega), if_neg (by omega), if_neg (by simp)]
  simp only [Except.ok.injEq, Fields.mk.injEq, true_and]
  omega

theorem fields_codeWScope {source scope : List UInt8} (ho : 6 ≤ o)
    (hdrop : data.drop o =
      toBytes 4 ((encodeText source).length + (encodeLevel scope).length + 4) ++
      (encodeText source ++ (encodeLevel scope ++ rest))) (hrest : rest ≠ [])
    (hlt : data.length < 2 ^ 31) :
    elementFields data start o (some .codeWScope) =
      .ok ⟨o + 4, o + 8, o + 4 + (encodeText source).length,
        o + 4 + (encodeText source).length + (encodeLevel scope).length⟩ := by
  have hrest' : encodeText source ++ (encodeLevel scope ++ rest) ≠ [] := by simp [hrest]
  have hlen := length_of_drop hdrop hrest'
  have hpos := List.length_pos_iff.mpr hrest
  have hfour := drop_add_of_drop hdrop
  have hscope := drop_add_of_drop hfour
  simp only [length_encodeText, length_encodeLevel, List.length_append, length_toBytes]
    at hlen hfour hscope ⊢
  have hl1 : readU32le (data.drop o) = source.length + 5 + (scope.length + 5) + 4 := by
    rw [hdrop, readU32le_toBytes _ (by simp; omega), length_encodeText, length_encodeLevel]
  have hl2 : readU32le (data.drop (o + 4)) = source.length + 1 := by
    rw [hfour, encodeText, List.append_assoc, readU32le_toBytes _ (by omega)]
  have hdoclen : readU32le (data.drop (o + 4 + 4 + (source.length + 1))) = scope.length + 5 := by
    rw [show o + 4 + 4 + (source.length + 1) = o + 4 + (source.length + 5) by omega, hscope,
      encodeLevel, List.append_assoc, readU32le_toBytes _ (by omega)]
  simp only [elementFields, hl1, hl2, hdoclen]
  rw [if_neg (by omega), if_neg (by omega), if_neg (by omega), if_neg (by omega),
    if_neg (by omega), if_neg (by omega)]
  simp only [Except.ok.injEq, Fields.mk.injEq, true_and]
  omega

/-- The iterator finds a value of the grammar where it is. -/
theorem fields_value (start : ℕ) (v : BsonValue) (ho : 6 ≤ o)
    (hdrop : data.drop o = v.encode ++ rest) (hrest : rest ≠ []) (hlt : data.length < 2 ^ 31) :
    elementFields data start o (some v.type) = .ok (v.fields o) := by
  cases v with
  | utf8 s => exact fields_text hdrop hrest hlt
  | code s =>
    have h : elementFields data start o (some .utf8) = _ := fields_text hdrop hrest hlt
    exact h
  | symbol s =>
    have h : elementFields data start o (some .utf8) = _ := fields_text hdrop hrest hlt
    exact h
  | document es => exact fields_level hdrop hrest hlt
  | array es =>
    have h : elementFields data start o (some .document) = _ := fields_level hdrop hrest hlt
    exact h
  | binary subtype bytes => exact fields_binary hdrop hrest hlt
  | bool b => exact fields_bool hdrop hrest
  | regex pattern options =>
    have hregex : data.drop o = pattern.1 ++ 0 :: (options.1 ++ 0 :: rest) := by
      rw [hdrop, BsonValue.encode]
      simp
    exact fields_regex hregex
  | dbPointer collection oid =>
    rw [BsonValue.encode, List.append_assoc] at hdrop
    exact fields_dbPointer hdrop hrest hlt
  | codeWScope source scope =>
    rw [BsonValue.encode, List.append_assoc, List.append_assoc] at hdrop
    exact fields_codeWScope ho hdrop hrest hlt
  | double bits | dateTime bits | timestamp bits | int64 bits | oid bits | int32 bits
  | decimal128 bits => simp only [BsonValue.type, elementFields, BsonValue.fields,
      BsonValue.encode, bits.2]
  | undefined | null | maxKey | minKey => rfl

theorem nextOff_fields (v : BsonValue) (o : ℕ) :
    (v.fields o).nextOff = o + v.encode.length := by
  cases v with
  | regex pattern options =>
    simp only [BsonValue.fields, BsonValue.encode, List.length_append, List.length_cons,
      List.length_nil]
    omega
  | dbPointer collection oid =>
    simp only [BsonValue.fields, BsonValue.encode, List.length_append, oid.2, Nat.add_assoc]
  | codeWScope source scope =>
    simp only [BsonValue.fields, BsonValue.encode, List.length_append, length_toBytes,
      Nat.add_assoc]
  | _ => rfl

end Mongolite
