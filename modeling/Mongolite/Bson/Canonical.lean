import Mongolite.Bson.Layout

/-! # Values that the iterator accepts

Whatever bytes the iterator takes for a value that has a conversion, they are the
bytes of a value of the grammar: its checks leave nothing else.
-/

namespace Mongolite

variable {data : List UInt8} {start o : ℕ} {f : Fields}

def BsonType.isScalar : BsonType → Bool
  | .double | .utf8 | .binary | .oid | .bool | .dateTime | .null | .code | .symbol | .int32
  | .timestamp | .int64 | .decimal128 => true
  | _ => false

theorem take_drop_add (data : List UInt8) (o m n : ℕ) :
    (data.drop o).take (m + n) = (data.drop o).take m ++ (data.drop (o + m)).take n := by
  rw [List.take_add, List.drop_drop]

theorem take_one (h : o < data.length) : (data.drop o).take 1 = [byteAt data o] := by
  rw [List.drop_eq_getElem_cons h, byteAt, List.getD_eq_getElem _ _ h]
  rfl

theorem toBytes_header (h : o + 4 ≤ data.length) :
    toBytes 4 (readU32le (data.drop o)) = (data.drop o).take 4 := by
  apply toBytes_readU32le
  rw [List.length_drop]
  omega

theorem exists_text (h : elementFields data start o (some .utf8) = .ok f) :
    ∃ s, encodeText s = (data.drop o).take (f.nextOff - o) := by
  simp only [elementFields] at h
  split_ifs at h with hshort hlong hlen hlast
  cases h
  obtain ⟨k, hk⟩ := Nat.exists_eq_add_one_of_ne_zero (fun h0 => hlen (.inl h0))
  rw [hk] at hlen hlast
  have hzero : byteAt data (o + 4 + k) = 0 := not_not.mp hlast
  have hs : ((data.drop (o + 4)).take k).length = k := by
    rw [List.length_take, List.length_drop]
    omega
  refine ⟨(data.drop (o + 4)).take k, ?_⟩
  have hend : o + 4 + readU32le (data.drop o) - o = 4 + (k + 1) := by omega
  rw [encodeText, hs, ← hk, toBytes_header (by omega), hend, take_drop_add, take_drop_add,
    take_one (by omega), hzero]

theorem exists_binary (h : elementFields data start o (some .binary) = .ok f) :
    ∃ subtype bytes, encodeBinary subtype bytes = (data.drop o).take (f.nextOff - o) := by
  simp only [elementFields] at h
  split_ifs at h with hshort hlong hsub hfour hinner
  · cases h
    have hread : readI32le (data.drop (o + 5)) = ((readU32le (data.drop o) - 4 : ℕ) : ℤ) := by
      rw [not_not.mp hinner]
      omega
    have hl := readU32le_of_readI32le hread
    refine ⟨byteAt data (o + 4), (data.drop (o + 9)).take (readU32le (data.drop o) - 4), ?_⟩
    have hs : ((data.drop (o + 9)).take (readU32le (data.drop o) - 4)).length =
        readU32le (data.drop o) - 4 := by
      rw [List.length_take, List.length_drop]
      omega
    have hend : o + 5 + readU32le (data.drop o) - o =
        4 + (1 + (4 + (readU32le (data.drop o) - 4))) := by omega
    have hinner' : toBytes 4 (readU32le (data.drop o) - 4) = (data.drop (o + 5)).take 4 := by
      rw [← hl]
      exact toBytes_header (by omega)
    rw [encodeBinary, if_pos hsub, hs, Nat.sub_add_cancel (by omega), toBytes_header (by omega),
      hinner', hend, take_drop_add, take_drop_add, take_one (by omega), take_drop_add]
    rfl
  · cases h
    refine ⟨byteAt data (o + 4), (data.drop (o + 5)).take (readU32le (data.drop o)), ?_⟩
    have hs : ((data.drop (o + 5)).take (readU32le (data.drop o))).length =
        readU32le (data.drop o) := by
      rw [List.length_take, List.length_drop]
      omega
    have hend : o + 5 + readU32le (data.drop o) - o = 4 + (1 + readU32le (data.drop o)) := by omega
    rw [encodeBinary, if_neg hsub, hs, toBytes_header (by omega), hend, take_drop_add,
      take_drop_add, take_one (by omega)]
    rfl

theorem exists_bool (h : elementFields data start o (some .bool) = .ok f) :
    ∃ b : Bool, [if b then 1 else 0] = (data.drop o).take (f.nextOff - o) := by
  simp only [elementFields] at h
  split_ifs at h with hend hbyte
  cases h
  rw [Nat.add_sub_cancel_left, take_one (by omega)]
  by_cases hzero : byteAt data o = 0
  · exact ⟨false, by rw [hzero]; rfl⟩
  · have hone : byteAt data o = 1 := by
      by_contra hne
      exact hbyte ⟨hzero, hne⟩
    exact ⟨true, by rw [hone]; rfl⟩

theorem exists_fixed {n : ℕ} {t : BsonType} (mk : Bytes n → BsonValue)
    (hmk : ∀ bits, (mk bits).type = t ∧ (mk bits).encode = bits.1) (hend : f.nextOff = o + n)
    (hin : f.nextOff < data.length) :
    ∃ v : BsonValue, v.type = t ∧ v.encode = (data.drop o).take (f.nextOff - o) := by
  have hlen : ((data.drop o).take n).length = n := by
    rw [List.length_take, List.length_drop]
    omega
  obtain ⟨htype, hencode⟩ := hmk ⟨(data.drop o).take n, hlen⟩
  exact ⟨_, htype, by rw [hencode, hend, Nat.add_sub_cancel_left]⟩

/-- What the iterator takes for a value of a type that is converted, is one of the grammar. -/
theorem exists_value {t : BsonType} (ht : t.isScalar = true)
    (h : elementFields data start o (some t) = .ok f) (hin : f.nextOff < data.length) :
    ∃ v : BsonValue, v.type = t ∧ v.encode = (data.drop o).take (f.nextOff - o) := by
  cases t with
  | utf8 =>
    obtain ⟨s, hs⟩ := exists_text h
    exact ⟨.utf8 s, rfl, by rw [BsonValue.encode, hs]⟩
  | code =>
    have htext : elementFields data start o (some .utf8) = .ok f := h
    obtain ⟨s, hs⟩ := exists_text htext
    exact ⟨.code s, rfl, by rw [BsonValue.encode, hs]⟩
  | symbol =>
    have htext : elementFields data start o (some .utf8) = .ok f := h
    obtain ⟨s, hs⟩ := exists_text htext
    exact ⟨.symbol s, rfl, by rw [BsonValue.encode, hs]⟩
  | binary =>
    obtain ⟨subtype, bytes, hs⟩ := exists_binary h
    exact ⟨.binary subtype bytes, rfl, by rw [BsonValue.encode, hs]⟩
  | bool =>
    obtain ⟨b, hb⟩ := exists_bool h
    exact ⟨.bool b, rfl, by rw [BsonValue.encode, hb]⟩
  | null =>
    cases h
    exact ⟨.null, rfl, by rw [BsonValue.encode, Nat.sub_self, List.take_zero]⟩
  | double =>
    cases h
    exact exists_fixed .double (fun _ => ⟨rfl, by rw [BsonValue.encode]⟩) rfl hin
  | dateTime =>
    cases h
    exact exists_fixed .dateTime (fun _ => ⟨rfl, by rw [BsonValue.encode]⟩) rfl hin
  | timestamp =>
    cases h
    exact exists_fixed .timestamp (fun _ => ⟨rfl, by rw [BsonValue.encode]⟩) rfl hin
  | int64 =>
    cases h
    exact exists_fixed .int64 (fun _ => ⟨rfl, by rw [BsonValue.encode]⟩) rfl hin
  | int32 =>
    cases h
    exact exists_fixed .int32 (fun _ => ⟨rfl, by rw [BsonValue.encode]⟩) rfl hin
  | oid =>
    cases h
    exact exists_fixed .oid (fun _ => ⟨rfl, by rw [BsonValue.encode]⟩) rfl hin
  | decimal128 =>
    cases h
    exact exists_fixed .decimal128 (fun _ => ⟨rfl, by rw [BsonValue.encode]⟩) rfl hin
  | eod | document | array | undefined | regex | dbPointer | codeWScope | maxKey | minKey =>
    exact absurd ht Bool.noConfusion

end Mongolite
