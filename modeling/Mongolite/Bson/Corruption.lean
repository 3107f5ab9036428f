import Mongolite.Bson.Canonical
import Mongolite.Bson.JsonWriting
import Mongolite.Bson.Shape

/-! # Converting corrupt documents

The iterator ends in the same way at the last byte of a document and at an
element that it cannot read, and the conversion keeps what came before. So a
conversion without a warning accounts for all bytes of a well-formed document
only. The JSON writer looks at the error that the iterator has left.
-/

namespace Mongolite

variable {opts : ConvertOptions} {it it' : BsonIter} {es : List (List UInt8 × RValue)}
  {ws : List String}

/-- These entries are the conversions of all elements up to the zero byte that ends the bytes of the
level, and so are those of the lists among them. -/
inductive Accounts (opts : ConvertOptions) : BsonIter → List (List UInt8 × RValue) → Prop
  | stop {it it' : BsonIter} (hnext : bsonIterNext it = (false, it'))
      (hend : it.data.drop it.nextOff = [0]) : Accounts opts it []
  | scalar {it it' : BsonIter} {v : RValue} {es : List (List UInt8 × RValue)}
      (hnext : bsonIterNext it = (true, it')) (hv : convertScalar opts it' = some v)
      (hes : Accounts opts it' es) : Accounts opts it ((bsonIterKey it', v) :: es)
  | array {it it' : BsonIter} {es fs : List (List UInt8 × RValue)}
      (hnext : bsonIterNext it = (true, it')) (htype : bsonIterType it' = some .array)
      (hfs : Accounts opts (bsonIterRecurse it') fs) (hes : Accounts opts it' es) :
      Accounts opts it ((bsonIterKey it', .list (fs.map Prod.snd)) :: es)
  | document {it it' : BsonIter} {es fs : List (List UInt8 × RValue)}
      (hnext : bsonIterNext it = (true, it')) (htype : bsonIterType it' = some .document)
      (hfs : Accounts opts (bsonIterRecurse it') fs) (hes : Accounts opts it' es) :
      Accounts opts it ((bsonIterKey it', .namedList fs) :: es)

/-- The iterator comes to an element of a type that is not converted, at any depth. -/
inductive MeetsUnconverted (opts : ConvertOptions) : BsonIter → Prop
  | here {it it' : BsonIter} (hnext : bsonIterNext it = (true, it'))
      (harray : bsonIterType it' ≠ some .array) (hdocument : bsonIterType it' ≠ some .document)
      (hv : convertScalar opts it' = none) : MeetsUnconverted opts it
  | inside {it it' : BsonIter} (hnext : bsonIterNext it = (true, it'))
      (htype : bsonIterType it' = some .array ∨ bsonIterType it' = some .document)
      (h : MeetsUnconverted opts (bsonIterRecurse it')) : MeetsUnconverted opts it
  | later {it it' : BsonIter} (hnext : bsonIterNext it = (true, it'))
      (h : MeetsUnconverted opts it') : MeetsUnconverted opts it

theorem meetsUnconverted_iff (hnext : bsonIterNext it = (true, it')) :
    MeetsUnconverted opts it ↔
      (bsonIterType it' ≠ some .array ∧ bsonIterType it' ≠ some .document ∧
        convertScalar opts it' = none) ∨
      ((bsonIterType it' = some .array ∨ bsonIterType it' = some .document) ∧
        MeetsUnconverted opts (bsonIterRecurse it')) ∨ MeetsUnconverted opts it' := by
  constructor
  · rintro (⟨hnext', harray, hdocument, hv⟩ | ⟨hnext', htype, h⟩ | ⟨hnext', h⟩)
    all_goals
      rw [hnext] at hnext'
      obtain rfl := (Prod.mk.inj hnext').2
    · exact .inl ⟨harray, hdocument, hv⟩
    · exact .inr (.inl ⟨htype, h⟩)
    · exact .inr (.inr h)
  · rintro (⟨harray, hdocument, hv⟩ | ⟨htype, h⟩ | h)
    · exact .here hnext harray hdocument hv
    · exact .inside hnext htype h
    · exact .later hnext h

theorem Converts.warns_iff (h : Converts opts it es ws) : ws ≠ [] ↔ MeetsUnconverted opts it := by
  induction h with
  | stop hnext =>
    refine iff_of_false (not_not_intro rfl) ?_
    rintro (⟨hnext', -, -, -⟩ | ⟨hnext', -, -⟩ | ⟨hnext', -⟩)
    all_goals
      rw [hnext] at hnext'
      exact Bool.noConfusion (Prod.mk.inj hnext').1
  | scalar hnext hv _ ih =>
    obtain ⟨harray, hdocument⟩ := ne_of_convertScalar hv
    rw [ih, meetsUnconverted_iff hnext]
    simp [hv, harray, hdocument]
  | unimplemented hnext harray hdocument hv _ _ =>
    exact iff_of_true (List.cons_ne_nil _ _) (.here hnext harray hdocument hv)
  | array hnext htype _ _ ihfs ihes | document hnext htype _ _ ihfs ihes =>
    rw [meetsUnconverted_iff hnext, ← ihfs, ← ihes, ne_eq, List.append_eq_nil_iff, not_and_or]
    simp [htype]

theorem isScalar_of_convertScalar {v : RValue} (h : convertScalar opts it = some v) :
    ∃ t, bsonIterType it = some t ∧ t.isScalar = true := by
  cases htype : bsonIterType it with
  | none => simp [convertScalar, htype] at h
  | some t =>
    refine ⟨t, rfl, ?_⟩
    cases t with
    | eod | document | array | undefined | regex | dbPointer | codeWScope | maxKey | minKey =>
      simp [convertScalar, htype] at h
    | _ => rfl

/-! ## Bytes that are accounted for -/

theorem MovesTo.drop_eq_cons {key : List UInt8} {v : BsonValue} {rest : Elements}
    (h : MovesTo it it' key) (htype : bsonIterType it' = some v.type)
    (hv : v.encode = (it.data.drop it'.d1).take (it'.nextOff - it'.d1))
    (hrest : it.data.drop it'.nextOff = rest.encode ++ [0]) :
    it.data.drop it.nextOff = (Elements.cons ⟨key, h.key_zero⟩ v rest).encode ++ [0] := by
  have hbyte : byteAt it.data it.nextOff = v.type.byte := by
    rw [bsonIterType, h.type_eq, h.data_eq] at htype
    exact byte_of_bsonTypeOf htype
  rw [h.drop_eq, hbyte, hrest, ← hv, Elements.encode]
  simp

theorem encodeLevel_of_drop {data : List UInt8} {d : Elements}
    (hlen : readU32le data = data.length) (hdrop : data.drop 4 = d.encode ++ [0]) :
    encodeLevel d.encode = data := by
  have hsize := congrArg List.length hdrop
  rw [List.length_drop, List.length_append, List.length_singleton] at hsize
  have hheader : toBytes 4 (d.encode.length + 5) = data.take 4 := by
    rw [← toBytes_readU32le (by omega), hlen]
    congr 1
    omega
  rw [encodeLevel, hheader, ← hdrop, List.take_append_drop]

theorem MovesTo.encodeLevel_eq {key : List UInt8} {d : Elements} (h : MovesTo it it' key)
    (htype : bsonIterType it' = some .array ∨ bsonIterType it' = some .document)
    (hd : (bsonIterRecurse it').data.drop (bsonIterRecurse it').nextOff = d.encode ++ [0]) :
    encodeLevel d.encode = (it.data.drop it'.d1).take (it'.nextOff - it'.d1) := by
  obtain ⟨hlen, hnext, -⟩ := h.embedded_spec htype
  have hdrop : it'.embedded.drop 4 = d.encode ++ [0] := hd
  have hfive := congrArg List.length hdrop
  rw [List.length_drop, List.length_append, List.length_singleton] at hfive
  have hembedded : it'.embedded = (it.data.drop it'.d1).take it'.embedded.length := by
    rw [hlen, BsonIter.embedded, h.data_eq]
  have hread : readU32le it'.embedded = it'.embedded.length := by
    conv_lhs => rw [hembedded, readU32le, List.take_take, Nat.min_eq_left (by omega)]
    exact hlen.symm
  rw [encodeLevel_of_drop hread hdrop, hnext, Nat.add_sub_cancel_left, ← hlen]
  exact hembedded

/-- What is accounted for is a sequence of elements of the grammar. -/
theorem Accounts.exists_elements (h : Accounts opts it es) :
    ∃ d : Elements, it.data.drop it.nextOff = d.encode ++ [0] := by
  induction h with
  | stop _ hend => exact ⟨.nil, by rw [hend, Elements.encode, List.nil_append]⟩
  | @scalar it it' v es hnext hv _ ih =>
    obtain ⟨key, hmove⟩ := movesTo_of_next hnext
    obtain ⟨d, hd⟩ := ih
    rw [hmove.data_eq] at hd
    obtain ⟨t, htype, ht⟩ := isScalar_of_convertScalar hv
    have hfields := hmove.fields
    rw [htype] at hfields
    obtain ⟨w, rfl, hw⟩ := exists_value ht hfields hmove.inside
    exact ⟨_, hmove.drop_eq_cons htype hw hd⟩
  | @array it it' es fs hnext htype _ _ ihfs ihes =>
    obtain ⟨key, hmove⟩ := movesTo_of_next hnext
    obtain ⟨c, hc⟩ := ihfs
    obtain ⟨d, hd⟩ := ihes
    rw [hmove.data_eq] at hd
    have hvalue : (BsonValue.array c).encode =
        (it.data.drop it'.d1).take (it'.nextOff - it'.d1) := by
      rw [BsonValue.encode, hmove.encodeLevel_eq (.inl htype) hc]
    exact ⟨_, hmove.drop_eq_cons (v := .array c) htype hvalue hd⟩
  | @document it it' es fs hnext htype _ _ ihfs ihes =>
    obtain ⟨key, hmove⟩ := movesTo_of_next hnext
    obtain ⟨c, hc⟩ := ihfs
    obtain ⟨d, hd⟩ := ihes
    rw [hmove.data_eq] at hd
    have hvalue : (BsonValue.document c).encode =
        (it.data.drop it'.d1).take (it'.nextOff - it'.d1) := by
      rw [BsonValue.encode, hmove.encodeLevel_eq (.inr htype) hc]
    exact ⟨_, hmove.drop_eq_cons (v := .document c) htype hvalue hd⟩

theorem Walks.accounts {d : Elements} (h : Walks it d) (hwarn : d.warnings = []) :
    Accounts opts it (d.toR opts) := by
  induction h with
  | stop hnext hend => exact .stop hnext hend
  | document hnext hkey htype _ _ ihfs ihes =>
    rw [Elements.warnings, BsonValue.warnings, List.append_eq_nil_iff] at hwarn
    have hcons := Accounts.document hnext htype (ihfs hwarn.1) (ihes hwarn.2)
    rwa [hkey] at hcons
  | array hnext hkey htype _ _ ihfs ihes =>
    rw [Elements.warnings, BsonValue.warnings, List.append_eq_nil_iff] at hwarn
    have hcons := Accounts.array hnext htype (ihfs hwarn.1) (ihes hwarn.2)
    rwa [hkey] at hcons
  | @leaf it it' key v es hnext hkey hbyte hdocument harray hv _ ihes =>
    rw [Elements.warnings, List.append_eq_nil_iff] at hwarn
    rw [Elements.toR, ← hkey]
    rcases v.scalar_spec opts hdocument harray with ⟨hsome, -⟩ | ⟨-, -, hwarns⟩
    · exact .scalar hnext ((hv opts).trans hsome) (ihes hwarn.2)
    · rw [hwarns] at hwarn
      exact absurd hwarn.1 (List.cons_ne_nil _ _)

theorem Accounts.encodeLevel_eq {b : Bson} (h : Accounts opts (bsonIterInit b) es) :
    ∃ d : Elements, encodeLevel d.encode = b.bytes := by
  obtain ⟨d, hd⟩ := h.exists_elements
  exact ⟨d, encodeLevel_of_drop b.framed.header hd⟩

/-- A conversion raises an error, warns, or accounts for all bytes, exactly where the document is
one of the grammar or a type that is not converted is met before the iterator ends. -/
theorem bson2list_accounts_iff (opts : ConvertOptions) (b : Bson) :
    ((∃ e, bson2list opts b = some (.error e)) ∨
      ∃ es ws levels, bson2list opts b = some (.ok ⟨.namedList es, ws, levels⟩) ∧
        (ws ≠ [] ∨ Accounts opts (bsonIterInit b) es)) ↔
      ((∃ d : Elements, encodeLevel d.encode = b.bytes) ∨
        MeetsUnconverted opts (bsonIterInit b)) := by
  obtain ⟨es, ws, hconverts⟩ := exists_converts opts (bsonIterInit b)
  obtain ⟨levels, hrun, -⟩ := bson2list_of_converts hconverts
  constructor
  · rintro (⟨e, herror⟩ | ⟨es', ws', levels', hrun', hmeets⟩)
    · rw [hrun] at herror
      cases herror
    · rw [hrun] at hrun'
      cases hrun'
      rcases hmeets with hwarn | haccounts
      · exact .inr (hconverts.warns_iff.mp hwarn)
      · exact .inl haccounts.encodeLevel_eq
  · rintro (⟨d, hd⟩ | hmeets)
    · have hlt : (encodeLevel d.encode).length < 2 ^ 31 := hd ▸ b.framed.lt_two_pow
      have hb : d.toBson hlt = b := by
        cases b
        simp only [Elements.toBson] at hd ⊢
        congr
      have hwalks := walks_toBson d hlt
      rw [hb] at hwalks
      obtain ⟨levels', hrun', -⟩ := bson2list_of_converts (hwalks.converts opts)
      refine .inr ⟨_, _, _, hrun', ?_⟩
      by_cases hwarn : d.warnings = []
      · exact .inr (hwalks.accounts hwarn)
      · exact .inl hwarn
    · exact .inr ⟨es, ws, levels, hrun, .inl (hconverts.warns_iff.mpr hmeets)⟩

/-! ## Documents that are rejected -/

theorem bsonAsRelaxedExtendedJson_of_unreadable {b : Bson}
    (hnext : bsonIterNext (bsonIterInit b) = (false, it')) (herr : it'.errOff ≠ 0)
    (hempty : bsonEmpty b = false) : bsonAsRelaxedExtendedJson b = .null := by
  have hvisit : bsonIterVisitAll (jsonAppendBsonContainer 199) true false (bsonIterInit b) =
      ⟨[], false⟩ := by
    rw [visitAll_stop hnext, decide_eq_false herr]
  have hrender : jsonAppendBsonContainer bsonMaxRecursion true b =
      jsonAppendNonEmpty documentTexts ⟨[], false⟩ := by
    rw [bsonMaxRecursion, jsonAppendBsonContainer, hempty, hvisit]
    rfl
  rw [bsonAsRelaxedExtendedJson, hrender]
  rfl

/-- A document whose first element cannot be read becomes an empty list and no JSON. -/
theorem bson2list_of_unreadable (opts : ConvertOptions) {b : Bson}
    (hnext : bsonIterNext (bsonIterInit b) = (false, it')) (herr : it'.errOff ≠ 0)
    (hempty : bsonEmpty b = false) :
    (∃ levels, bson2list opts b = some (.ok ⟨.namedList [], [], levels⟩)) ∧
      bsonAsRelaxedExtendedJson b = .null := by
  have hstop : Converts opts (bsonIterInit b) [] [] := .stop hnext
  obtain ⟨levels, hrun, -⟩ := bson2list_of_converts hstop
  exact ⟨⟨levels, hrun⟩, bsonAsRelaxedExtendedJson_of_unreadable hnext herr hempty⟩

/-- An element of a type that does not exist. -/
def corruptBson : Bson :=
  ⟨[7, 0, 0, 0, 0x20, 0, 0], by constructor <;> decide⟩

/-- The list is empty and there is no warning, although the JSON writer rejects the document. -/
theorem bson2list_corruptBson :
    bson2list ⟨false, false⟩ corruptBson = some (.ok ⟨.namedList [], [], [(0, 0)]⟩) ∧
      bsonAsRelaxedExtendedJson corruptBson = .null ∧
      ¬ ((∃ e, bson2list ⟨false, false⟩ corruptBson = some (.error e)) ∨
        ∃ es ws levels, bson2list ⟨false, false⟩ corruptBson =
          some (.ok ⟨.namedList es, ws, levels⟩) ∧
          (ws ≠ [] ∨ Accounts ⟨false, false⟩ (bsonIterInit corruptBson) es)) := by
  have hrun : bson2list ⟨false, false⟩ corruptBson =
      some (.ok ⟨.namedList [], [], [(0, 0)]⟩) := rfl
  have hnull := bsonAsRelaxedExtendedJson_of_unreadable (b := corruptBson) rfl (by decide) rfl
  refine ⟨hrun, hnull, ?_⟩
  rintro (⟨e, herror⟩ | ⟨es, ws, levels, hrun', hmeets⟩)
  · rw [hrun] at herror
    cases herror
  · rw [hrun] at hrun'
    cases hrun'
    rcases hmeets with hwarn | haccounts
    · exact hwarn rfl
    · cases haccounts with
      | stop hnext hend => exact absurd hend (by decide)

end Mongolite
