import Mongolite.Bson.Conversion
import Mongolite.Bson.Layout

/-! # Converting well-formed documents

The iterator walks over a well-formed document element by element and stops at
its last byte, so the conversion is the list that the document stands for, at
every depth.
-/

namespace Mongolite

variable {opts : ConvertOptions} {data rest s : List UInt8}

/-- The iterator is at an element with this value, and `rest` follows it. -/
structure HoldsValue (it : BsonIter) (v : BsonValue) (rest : List UInt8) : Prop where
  byte_eq : byteAt it.data it.type = v.type.byte
  drop_eq : it.data.drop it.d1 = v.encode ++ rest
  d2_eq : it.d2 = (v.fields it.d1).d2
  d3_eq : it.d3 = (v.fields it.d1).d3

theorem HoldsValue.type_eq {it : BsonIter} {v : BsonValue} (h : HoldsValue it v rest) :
    bsonIterType it = some v.type := by
  rw [bsonIterType, h.byte_eq, bsonTypeOf_byte]

theorem next_of_element {it : BsonIter} {key : CString} {v : BsonValue}
    (hraw : it.raw = some data) (hoff : 4 ≤ it.nextOff) (hlt : data.length < 2 ^ 31)
    (hdrop : data.drop it.nextOff = v.type.byte :: (key.1 ++ 0 :: (v.encode ++ rest)))
    (hrest : rest ≠ []) :
    ∃ it', bsonIterNext it = (true, it') ∧ it'.raw = some data ∧ bsonIterKey it' = key.1 ∧
      HoldsValue it' v rest ∧ it'.d1 = it.nextOff + key.1.length + 2 ∧
      it'.nextOff = it'.d1 + v.encode.length := by
  have hkey : data.drop (it.nextOff + 1) = key.1 ++ 0 :: (v.encode ++ rest) := by
    rw [← List.tail_drop, hdrop, List.tail_cons]
  have hzero := findZero_of_drop key.2 hkey
  have hvalue : data.drop (it.nextOff + 1 + key.1.length + 1) = v.encode ++ rest := by
    have hsplit : data.drop (it.nextOff + 1) = (key.1 ++ [0]) ++ (v.encode ++ rest) := by
      simpa using hkey
    have h := drop_add_of_drop hsplit
    rwa [List.length_append, List.length_singleton, ← Nat.add_assoc] at h
  have hfields := fields_value it.nextOff v (by omega) hvalue hrest hlt
  have hbyte : byteAt data it.nextOff = v.type.byte := by
    have hat := byteAt_add data it.nextOff 0
    rw [Nat.add_zero, hdrop] at hat
    exact hat
  have hinside : (v.fields (it.nextOff + 1 + key.1.length + 1)).nextOff < data.length := by
    have hlen := length_of_drop hvalue hrest
    have hpos := List.length_pos_iff.mpr hrest
    rw [nextOff_fields]
    omega
  have hnext : bsonIterNext it = (true, { it with
      off := it.nextOff, type := it.nextOff, key := it.nextOff + 1,
      d1 := it.nextOff + 1 + key.1.length + 1,
      d2 := (v.fields (it.nextOff + 1 + key.1.length + 1)).d2,
      d3 := (v.fields (it.nextOff + 1 + key.1.length + 1)).d3,
      d4 := (v.fields (it.nextOff + 1 + key.1.length + 1)).d4,
      nextOff := (v.fields (it.nextOff + 1 + key.1.length + 1)).nextOff, errOff := 0 }) := by
    simp only [bsonIterNext, hraw, hzero, hbyte, bsonTypeOf_byte, hfields]
    rw [if_neg (by omega)]
  refine ⟨_, hnext, hraw, ?_, ⟨?_, ?_, rfl, rfl⟩, by simp only; omega, nextOff_fields v _⟩
  · simp only [bsonIterKey, BsonIter.data, hraw, Option.getD_some, hkey]
    rw [cString_append_zero, cString_of_not_mem key.2]
  · simp only [BsonIter.data, hraw, Option.getD_some]
    exact hbyte
  · simp only [BsonIter.data, hraw, Option.getD_some]
    exact hvalue

theorem next_at_end {it : BsonIter} (hraw : it.raw = some data)
    (hdrop : data.drop it.nextOff = [0]) : ∃ it', bsonIterNext it = (false, it') := by
  have hnil : data.drop (it.nextOff + 1) = [] := by
    rw [← List.tail_drop, hdrop, List.tail_cons]
  have hnone : findZero data (it.nextOff + 1) = none := by
    rw [findZero, hnil]
    rfl
  exact ⟨_, Prod.ext (by simp only [bsonIterNext, hraw, hnone]) rfl⟩

theorem drop_toBytes_append (w n : ℕ) (bs : List UInt8) : (toBytes w n ++ bs).drop w = bs := by
  rw [List.drop_append_of_le_length (by simp), List.drop_of_length_le (by simp), List.nil_append]

theorem take_append_of_length {p : List UInt8} {n : ℕ} (h : p.length = n) :
    (p ++ rest).take n = p := by
  rw [← h, List.take_left]

theorem readI64le_append {bs : List UInt8} (h : 8 ≤ bs.length) :
    readI64le (bs ++ rest) = readI64le bs := by
  rw [readI64le, List.take_append_of_le_length h, readI64le]

theorem convertScalar_text {it : BsonIter} (hdrop : it.data.drop it.d1 = encodeText s ++ rest)
    (hd2 : it.d2 = it.d1 + 4) : cString (it.data.drop it.d2) = cString s := by
  rw [hd2, ← List.drop_drop, hdrop, encodeText, List.append_assoc, drop_toBytes_append,
    List.append_assoc, List.singleton_append, cString_append_zero]

def BsonValue.scalar (opts : ConvertOptions) : BsonValue → Option RValue
  | .document _ | .array _ | .undefined | .regex _ _ | .dbPointer _ _ | .codeWScope _ _
  | .maxKey | .minKey => none
  | v => some (v.toR opts)

theorem convertBinary_of_holds {it : BsonIter} {subtype : UInt8} {bytes : List UInt8}
    (h : HoldsValue it (.binary subtype bytes) rest) (hlt : it.data.length < 2 ^ 31)
    (hrest : rest ≠ []) : convertBinary it = .raw bytes subtype := by
  have hdrop := h.drop_eq
  have hlen := length_of_drop hdrop hrest
  have hd2 : it.d2 = it.d1 + 4 := h.d2_eq
  have hd3 : it.d3 = it.d1 + 5 := h.d3_eq
  have hdrop4 := congrArg (List.drop 4) hdrop
  rw [BsonValue.encode, encodeBinary] at hdrop hlen hdrop4
  rw [List.drop_drop] at hdrop4
  split_ifs at hdrop hlen hdrop4 with hsub
  · rw [List.append_assoc, drop_toBytes_append] at hdrop4
    have hfive := congrArg List.tail hdrop4
    rw [List.tail_drop] at hfive
    simp only [List.length_append, List.length_cons, length_toBytes] at hlen
    have hread : readU32le (it.data.drop it.d1) = bytes.length + 4 := by
      rw [hdrop, List.append_assoc, readU32le_toBytes _ (by omega)]
    have hsubtype : byteAt it.data it.d2 = subtype := by
      have hat := byteAt_add it.data (it.d1 + 4) 0
      rw [Nat.add_zero, hdrop4] at hat
      rw [hd2, hat]
      rfl
    have hbytes : it.data.drop (it.d3 + 4) = bytes ++ rest := by
      rw [hd3, ← List.drop_drop, hfive, List.cons_append, List.tail_cons, List.append_assoc,
        drop_toBytes_append]
    simp only [convertBinary, hsubtype, hread, hbytes, if_pos hsub]
    rw [Nat.add_sub_cancel, List.take_left]
  · rw [List.append_assoc, drop_toBytes_append] at hdrop4
    have hfive := congrArg List.tail hdrop4
    rw [List.tail_drop] at hfive
    simp only [List.length_append, List.length_cons, length_toBytes] at hlen
    have hread : readU32le (it.data.drop it.d1) = bytes.length := by
      rw [hdrop, List.append_assoc, readU32le_toBytes _ (by omega)]
    have hsubtype : byteAt it.data it.d2 = subtype := by
      have hat := byteAt_add it.data (it.d1 + 4) 0
      rw [Nat.add_zero, hdrop4] at hat
      rw [hd2, hat]
      rfl
    have hbytes : it.data.drop it.d3 = bytes ++ rest := by
      rw [hd3, hfive, List.cons_append, List.tail_cons]
    simp only [convertBinary, hsubtype, hread, hbytes, if_neg hsub]
    rw [List.take_left]

theorem convertScalar_of_holds (opts : ConvertOptions) {it : BsonIter} {v : BsonValue}
    (h : HoldsValue it v rest) (hlt : it.data.length < 2 ^ 31) (hrest : rest ≠ []) :
    convertScalar opts it = v.scalar opts := by
  have htype := h.type_eq
  have hdrop := h.drop_eq
  have hd2 := h.d2_eq
  have hd3 := h.d3_eq
  cases v with
  | utf8 s | code s | symbol s =>
    simp only [convertScalar, htype, BsonValue.type, convertScalar_text hdrop hd2]
    rfl
  | double bits | oid bits | decimal128 bits =>
    simp only [convertScalar, htype, BsonValue.type, hdrop, BsonValue.encode,
      take_append_of_length bits.2]
    rfl
  | int32 bits =>
    simp only [convertScalar, htype, BsonValue.type, hdrop, BsonValue.encode,
      readI32le_append (bits.2.ge)]
    rfl
  | int64 bits =>
    simp only [convertScalar, htype, BsonValue.type, hdrop, BsonValue.encode,
      readI64le_append (bits.2.ge)]
    rfl
  | dateTime bits =>
    simp only [convertScalar, convertDate, htype, BsonValue.type, hdrop, BsonValue.encode,
      readI64le_append (bits.2.ge)]
    rfl
  | timestamp bits =>
    have hfour : it.data.drop (it.d1 + 4) = bits.1.drop 4 ++ rest := by
      rw [← List.drop_drop, hdrop, BsonValue.encode,
        List.drop_append_of_le_length (by rw [bits.2]; decide)]
    simp only [convertScalar, convertTimestamp, htype, BsonValue.type, hdrop, BsonValue.encode,
      hfour, readU32le_append (show 4 ≤ bits.1.length by rw [bits.2]; decide),
      readU32le_append (show 4 ≤ (bits.1.drop 4).length by rw [List.length_drop, bits.2])]
    rfl
  | bool b =>
    have hval : byteAt it.data it.d1 = if b then 1 else 0 := by
      have hat := byteAt_add it.data it.d1 0
      rw [Nat.add_zero, hdrop] at hat
      exact hat
    simp only [convertScalar, htype, BsonValue.type, hval]
    cases b <;> rfl
  | binary subtype bytes =>
    simp only [convertScalar, htype, BsonValue.type, convertBinary_of_holds h hlt hrest]
    rfl
  | document es | array es | regex pattern options | dbPointer collection oid
  | codeWScope source scope | undefined | maxKey | minKey =>
    simp only [convertScalar, htype, BsonValue.type]
    rfl
  | null =>
    simp only [convertScalar, htype, BsonValue.type]
    rfl

/-- The iterator finds these elements, and then the zero byte that ends its bytes; so it does in
every embedded document and array. -/
inductive Walks : BsonIter → Elements → Prop
  | stop {it it' : BsonIter} (hnext : bsonIterNext it = (false, it'))
      (hend : it.data.drop it.nextOff = [0]) : Walks it .nil
  | document {it it' : BsonIter} {key : CString} {fs es : Elements}
      (hnext : bsonIterNext it = (true, it')) (hkey : bsonIterKey it' = key.1)
      (htype : bsonIterType it' = some .document) (hfs : Walks (bsonIterRecurse it') fs)
      (hes : Walks it' es) : Walks it (.cons key (.document fs) es)
  | array {it it' : BsonIter} {key : CString} {fs es : Elements}
      (hnext : bsonIterNext it = (true, it')) (hkey : bsonIterKey it' = key.1)
      (htype : bsonIterType it' = some .array) (hfs : Walks (bsonIterRecurse it') fs)
      (hes : Walks it' es) : Walks it (.cons key (.array fs) es)
  | leaf {it it' : BsonIter} {key : CString} {v : BsonValue} {es : Elements}
      (hnext : bsonIterNext it = (true, it')) (hkey : bsonIterKey it' = key.1)
      (hbyte : byteAt it'.data it'.type = v.type.byte)
      (hdocument : v.type ≠ .document) (harray : v.type ≠ .array)
      (hv : ∀ opts, convertScalar opts it' = v.scalar opts)
      (hes : Walks it' es) : Walks it (.cons key v es)

theorem recurse_level {it : BsonIter} {es : List UInt8}
    (hdrop : it.data.drop it.d1 = encodeLevel es ++ rest) (hrest : rest ≠ [])
    (hlt : it.data.length < 2 ^ 31) :
    bsonIterRecurse it = iterOver (encodeLevel es) ∧ (encodeLevel es).length < 2 ^ 31 := by
  have hlen := length_of_drop hdrop hrest
  have hshort : (encodeLevel es).length < 2 ^ 31 := by omega
  rw [bsonIterRecurse, hdrop, readU32le_encodeLevel rest hshort, List.take_left]
  exact ⟨rfl, hshort⟩

theorem drop_encodeLevel (es : List UInt8) : (encodeLevel es).drop 4 = es ++ [0] :=
  drop_toBytes_append 4 _ _

theorem walks_of_drop (es : Elements) {it : BsonIter} {data : List UInt8}
    (hraw : it.raw = some data) (hoff : 4 ≤ it.nextOff) (hlt : data.length < 2 ^ 31)
    (hdrop : data.drop it.nextOff = es.encode ++ [0]) : Walks it es := by
  induction hn : es.encode.length using Nat.strong_induction_on generalizing es it data with
  | _ n ih =>
    subst hn
    cases es with
    | nil =>
      obtain ⟨it', hnext⟩ := next_at_end hraw hdrop
      refine .stop hnext ?_
      rwa [BsonIter.data, hraw]
    | cons key v es =>
      have hsplit : data.drop it.nextOff =
          v.type.byte :: (key.1 ++ 0 :: (v.encode ++ (es.encode ++ [0]))) := by
        rw [hdrop, Elements.encode]
        simp
      obtain ⟨it', hnext, hraw', hkey, hholds, hd1, hnextOff⟩ :=
        next_of_element hraw hoff hlt hsplit (by simp)
      have hdata : it'.data = data := by rw [BsonIter.data, hraw', Option.getD_some]
      have hvalue := hholds.drop_eq
      have hrest : data.drop it'.nextOff = es.encode ++ [0] := by
        rw [hnextOff, ← hdata]
        exact drop_add_of_drop hvalue
      have hlen : (Elements.cons key v es).encode.length =
          key.1.length + v.encode.length + es.encode.length + 2 := by
        simp only [Elements.encode, List.length_cons, List.length_append]
        omega
      have hes : Walks it' es := ih _ (by omega) es hraw' (by omega) hlt hrest rfl
      have hfs : ∀ fs : Elements, v.encode = encodeLevel fs.encode →
          Walks (bsonIterRecurse it') fs := by
        intro fs hencode
        rw [hencode] at hvalue hlen
        rw [length_encodeLevel] at hlen
        obtain ⟨hrecurse, hshort⟩ := recurse_level hvalue (by simp) (hdata ▸ hlt)
        rw [hrecurse]
        exact ih _ (by omega) fs rfl (Nat.le_refl 4) hshort (drop_encodeLevel _) rfl
      cases v with
      | document fs =>
        exact .document hnext hkey hholds.type_eq (hfs fs (by rw [BsonValue.encode])) hes
      | array fs =>
        exact .array hnext hkey hholds.type_eq (hfs fs (by rw [BsonValue.encode])) hes
      | _ =>
        refine .leaf hnext hkey hholds.byte_eq (by simp [BsonValue.type])
          (by simp [BsonValue.type]) (fun opts => ?_) hes
        exact convertScalar_of_holds opts hholds (hdata ▸ hlt) (by simp)

/-- A value that is no list is converted, or it is `NULL` with a warning. -/
theorem BsonValue.scalar_spec (opts : ConvertOptions) (v : BsonValue)
    (hdocument : v.type ≠ .document) (harray : v.type ≠ .array) :
    (v.scalar opts = some (v.toR opts) ∧ v.warnings = []) ∨
      (v.scalar opts = none ∧ v.toR opts = .null ∧
        v.warnings = [unimplementedType v.type.byte]) := by
  cases v with
  | document fs => exact absurd rfl hdocument
  | array fs => exact absurd rfl harray
  | undefined | regex | dbPointer | codeWScope | maxKey | minKey =>
    exact .inr ⟨rfl, by simp only [toR], by simp only [warnings, type]⟩
  | _ => exact .inl ⟨rfl, by simp only [warnings]⟩

theorem Walks.converts {it : BsonIter} {es : Elements} (h : Walks it es) (opts : ConvertOptions) :
    Converts opts it (es.toR opts) es.warnings := by
  induction h with
  | stop hnext => exact .stop hnext
  | document hnext hkey htype _ _ ihfs ihes =>
    have hcons := Converts.document hnext htype ihfs ihes
    rwa [hkey] at hcons
  | array hnext hkey htype _ _ ihfs ihes =>
    have hcons := Converts.array hnext htype ihfs ihes
    rwa [hkey] at hcons
  | @leaf it it' key v es hnext hkey hbyte hdocument harray hv _ ihes =>
    have htype : bsonIterType it' = some v.type := by rw [bsonIterType, hbyte, bsonTypeOf_byte]
    rw [Elements.toR, Elements.warnings, ← hkey]
    rcases v.scalar_spec opts hdocument harray with ⟨hsome, hwarn⟩ | ⟨hnone, hnull, hwarn⟩
    · rw [hwarn]
      exact .scalar hnext ((hv opts).trans hsome) ihes
    · rw [hwarn, hnull, ← hbyte]
      exact .unimplemented hnext (by simp [htype, harray]) (by simp [htype, hdocument])
        ((hv opts).trans hnone) ihes

theorem walks_toBson (es : Elements) (h : (encodeLevel es.encode).length < 2 ^ 31) :
    Walks (bsonIterInit (es.toBson h)) es :=
  walks_of_drop es rfl (Nat.le_refl 4) h (drop_encodeLevel _)

def Elements.keys : Elements → List (List UInt8)
  | .nil => []
  | .cons key _ rest => key.1 :: rest.keys

theorem Elements.names_toR (opts : ConvertOptions) :
    ∀ es : Elements, (es.toR opts).map Prod.fst = es.keys
  | .nil => by simp [toR, keys]
  | .cons key v rest => by simp [toR, keys, names_toR opts rest]

/-- A document of the grammar, of any depth, becomes the list that it stands for: an entry for
each element, in order and under its key, and as many entries stored as allocated at every
level. -/
theorem bson2list_toBson (opts : ConvertOptions) (es : Elements)
    (h : (encodeLevel es.encode).length < 2 ^ 31) :
    (∃ levels, bson2list opts (es.toBson h) = some (.ok ⟨.namedList (es.toR opts), es.warnings,
      levels⟩) ∧ AllStored levels) ∧ (es.toR opts).map Prod.fst = es.keys :=
  ⟨bson2list_of_converts ((walks_toBson es h).converts opts), es.names_toR opts⟩

/-- `{"a": {"": null, "": <undefined>}, "a": [1, []]}` -/
def nestedElements : Elements :=
  .cons ⟨[0x61], by decide⟩
    (.document (.cons ⟨[], by decide⟩ .null (.cons ⟨[], by decide⟩ .undefined .nil)))
    (.cons ⟨[0x61], by decide⟩
      (.array (.cons ⟨[0x30], by decide⟩ (.int32 ⟨[1, 0, 0, 0], rfl⟩)
        (.cons ⟨[0x31], by decide⟩ (.array .nil) .nil))) .nil)

theorem length_nestedElements : (encodeLevel nestedElements.encode).length = 40 := by
  simp [nestedElements, Elements.encode, BsonValue.encode]

theorem bson2list_nestedElements :
    (∃ levels, bson2list ⟨false, false⟩
        (nestedElements.toBson (by rw [length_nestedElements]; decide)) =
      some (.ok ⟨.namedList [([0x61], .namedList [([], .null), ([], .null)]),
        ([0x61], .list [.integer 1, .list []])], ["Unimplemented BSON type 6\n"], levels⟩) ∧
      AllStored levels) ∧
    (nestedElements.toR ⟨false, false⟩).map Prod.fst = [[0x61], [0x61]] :=
  bson2list_toBson ⟨false, false⟩ nestedElements (by rw [length_nestedElements]; decide)

end Mongolite
