import Mongolite.Bson.Convert
import Mongolite.Bson.Step

/-! # What a conversion makes of any bytes

`Converts` says element by element what the filling pass stores and which
warnings it raises. The code follows it on every document, corrupt or not: both
passes see the same elements, so they agree on how many there are.
-/

namespace Mongolite

variable {opts : ConvertOptions} {it it' : BsonIter} {es : List (List UInt8 × RValue)}
  {ws : List String} {fuel : ℕ}

/-- The elements from an iterator on, converted, and the warnings of their conversion. -/
inductive Converts (opts : ConvertOptions) :
    BsonIter → List (List UInt8 × RValue) → List String → Prop
  | stop {it it' : BsonIter} (hnext : bsonIterNext it = (false, it')) : Converts opts it [] []
  | scalar {it it' : BsonIter} {v : RValue} {es : List (List UInt8 × RValue)} {ws : List String}
      (hnext : bsonIterNext it = (true, it')) (hv : convertScalar opts it' = some v)
      (hes : Converts opts it' es ws) : Converts opts it ((bsonIterKey it', v) :: es) ws
  | unimplemented {it it' : BsonIter} {es : List (List UInt8 × RValue)} {ws : List String}
      (hnext : bsonIterNext it = (true, it')) (harray : bsonIterType it' ≠ some .array)
      (hdocument : bsonIterType it' ≠ some .document) (hv : convertScalar opts it' = none)
      (hes : Converts opts it' es ws) :
      Converts opts it ((bsonIterKey it', .null) :: es)
        (unimplementedType (byteAt it'.data it'.type) :: ws)
  | array {it it' : BsonIter} {es fs : List (List UInt8 × RValue)} {ws vs : List String}
      (hnext : bsonIterNext it = (true, it')) (htype : bsonIterType it' = some .array)
      (hfs : Converts opts (bsonIterRecurse it') fs vs) (hes : Converts opts it' es ws) :
      Converts opts it ((bsonIterKey it', .list (fs.map Prod.snd)) :: es) (vs ++ ws)
  | document {it it' : BsonIter} {es fs : List (List UInt8 × RValue)} {ws vs : List String}
      (hnext : bsonIterNext it = (true, it')) (htype : bsonIterType it' = some .document)
      (hfs : Converts opts (bsonIterRecurse it') fs vs) (hes : Converts opts it' es ws) :
      Converts opts it ((bsonIterKey it', .namedList fs) :: es) (vs ++ ws)

theorem exists_converts (opts : ConvertOptions) (it : BsonIter) :
    ∃ es ws, Converts opts it es ws := by
  induction hn : it.remaining using Nat.strong_induction_on generalizing it with
  | _ n ih =>
    subst hn
    rcases hnext : bsonIterNext it with ⟨_ | _, it'⟩
    · exact ⟨[], [], .stop hnext⟩
    · obtain ⟨key, hmove⟩ := movesTo_of_next hnext
      have hrest := hmove.remaining_lt
      obtain ⟨es, ws, hes⟩ := ih it'.remaining (by omega) it' rfl
      by_cases harray : bsonIterType it' = some .array
      · have hless := hmove.recurse_lt (.inl harray)
        obtain ⟨fs, vs, hfs⟩ := ih _ (by omega) (bsonIterRecurse it') rfl
        exact ⟨_, _, .array hnext harray hfs hes⟩
      by_cases hdocument : bsonIterType it' = some .document
      · have hless := hmove.recurse_lt (.inr hdocument)
        obtain ⟨fs, vs, hfs⟩ := ih _ (by omega) (bsonIterRecurse it') rfl
        exact ⟨_, _, .document hnext hdocument hfs hes⟩
      cases hv : convertScalar opts it' with
      | some v => exact ⟨_, _, .scalar hnext hv hes⟩
      | none => exact ⟨_, _, .unimplemented hnext harray hdocument hv hes⟩

theorem Converts.remaining_lt (hnext : bsonIterNext it = (true, it')) :
    it'.remaining + 2 ≤ it.remaining := by
  obtain ⟨key, hmove⟩ := movesTo_of_next hnext
  exact hmove.remaining_lt

theorem countElements_of_converts (h : Converts opts it es ws) (fuel count : ℕ)
    (hfuel : it.remaining < fuel) : countElements fuel it count = some (count + es.length) := by
  induction h generalizing fuel count with
  | stop hnext =>
    cases fuel with
    | zero => exact absurd hfuel (Nat.not_lt_zero _)
    | succ fuel => simp [countElements, hnext]
  | scalar hnext _ _ ih | unimplemented hnext _ _ _ _ ih | array hnext _ _ _ _ ih
  | document hnext _ _ _ _ ih =>
    cases fuel with
    | zero => exact absurd hfuel (Nat.not_lt_zero _)
    | succ fuel =>
      have hless := Converts.remaining_lt hnext
      simp only [countElements, hnext]
      rw [ih fuel (count + 1) (by omega), List.length_cons, Nat.add_assoc, Nat.add_comm 1]

def AllStored (levels : List (ℕ × ℕ)) : Prop := ∀ p ∈ levels, p.1 = p.2

/-- The filling pass, from `it` on, puts these entries into the places that are left. -/
def Fills (opts : ConvertOptions) (it : BsonIter) (es : List (List UInt8 × RValue))
    (ws : List String) : Prop :=
  ∀ (fuel : ℕ) (done : List (List UInt8 × RValue)) (st : Filling), it.remaining < fuel →
    st.entries = done ++ List.replicate es.length ([], .null) → st.stored = done.length →
    ∃ levels, fillList opts fuel it st = some (.ok ⟨done ++ es, done.length + es.length,
      st.warnings ++ ws, st.levels ++ levels⟩) ∧ AllStored levels

theorem store_next {done : List (List UInt8 × RValue)} {n : ℕ} {st : Filling} (key : List UInt8)
    (c : Converted) (hentries : st.entries = done ++ List.replicate (n + 1) ([], .null))
    (hstored : st.stored = done.length) :
    st.store key c = .ok ⟨(done ++ [(key, c.value)]) ++ List.replicate n ([], .null),
      (done ++ [(key, c.value)]).length, st.warnings ++ c.warnings, st.levels ++ c.levels⟩ := by
  have hlt : st.stored < st.entries.length := by
    rw [hentries, hstored]
    simp
  have hset : st.entries.set st.stored (key, c.value) =
      (done ++ [(key, c.value)]) ++ List.replicate n ([], .null) := by
    rw [hentries, hstored, List.set_append_right _ _ (Nat.le_refl _), Nat.sub_self,
      List.replicate_succ, List.set_cons_zero, List.append_assoc, List.singleton_append]
  rw [Filling.store, if_pos hlt, hset, hstored]
  simp

theorem fills_cons (v : RValue) (vs : List String) (hnext : bsonIterNext it = (true, it'))
    (hvalue : ∀ fuel, it.remaining ≤ fuel →
      ∃ levels, convertValue opts fuel it' = some (.ok ⟨v, vs, levels⟩) ∧ AllStored levels)
    (hes : Fills opts it' es ws) : Fills opts it ((bsonIterKey it', v) :: es) (vs ++ ws) := by
  intro fuel done st hfuel hentries hstored
  cases fuel with
  | zero => exact absurd hfuel (Nat.not_lt_zero _)
  | succ fuel =>
    have hless := Converts.remaining_lt hnext
    rw [List.length_cons] at hentries
    obtain ⟨lv, hconvert, hlv⟩ := hvalue fuel (by omega)
    obtain ⟨levels, hfill, hlevels⟩ := hes fuel (done ++ [(bsonIterKey it', v)])
      ⟨(done ++ [(bsonIterKey it', v)]) ++ List.replicate es.length ([], .null),
        (done ++ [(bsonIterKey it', v)]).length, st.warnings ++ vs, st.levels ++ lv⟩
      (by omega) rfl rfl
    refine ⟨lv ++ levels, ?_, ?_⟩
    · rw [fillList, hnext]
      simp only [hconvert, andThen_ok, store_next _ ⟨v, vs, lv⟩ hentries hstored, hfill]
      simp [Nat.add_assoc, Nat.add_comm 1]
    · intro p hp
      exact (List.mem_append.mp hp).elim (hlv p) (hlevels p)

theorem convertList_of_fills (h : Converts opts it es ws) (hfills : Fills opts it es ws)
    (fuel : ℕ) (hfuel : it.remaining + 1 < fuel) :
    ∃ levels, AllStored levels ∧
      convertArray opts fuel it it = some (.ok ⟨.list (es.map Prod.snd), ws, levels⟩) ∧
      convertObject opts fuel it it = some (.ok ⟨.namedList es, ws, levels⟩) := by
  cases fuel with
  | zero => exact absurd hfuel (Nat.not_lt_zero _)
  | succ fuel =>
    have hcount := countElements_of_converts h fuel 0 (by omega)
    obtain ⟨levels, hfill, hl⟩ :=
      hfills fuel [] (allocVector es.length) (by omega) rfl rfl
    rw [Nat.zero_add] at hcount
    simp only [List.nil_append, List.length_nil, Nat.zero_add] at hfill
    refine ⟨(es.length, es.length) :: levels, ?_, ?_, ?_⟩
    · rintro p (_ | ⟨_, hp⟩)
      · rfl
      · exact hl p hp
    · simp only [convertArray, hcount, hfill, andThen_ok]
      simp [allocVector]
    · simp only [convertObject, hcount, hfill, andThen_ok]
      simp [allocVector]

theorem ne_of_convertScalar {v : RValue} (h : convertScalar opts it = some v) :
    bsonIterType it ≠ some .array ∧ bsonIterType it ≠ some .document := by
  constructor <;>
  · intro htype
    simp [convertScalar, htype] at h

theorem exists_fuel (hnext : bsonIterNext it = (true, it')) (hfuel : it.remaining ≤ fuel) :
    ∃ n, fuel = n + 1 := by
  have hless := Converts.remaining_lt hnext
  exact ⟨fuel - 1, by omega⟩

theorem fills_of_converts (h : Converts opts it es ws) : Fills opts it es ws := by
  induction h with
  | stop hnext =>
    intro fuel done st hfuel hentries hstored
    cases fuel with
    | zero => exact absurd hfuel (Nat.not_lt_zero _)
    | succ fuel =>
      obtain ⟨entries, stored, warnings, levels⟩ := st
      simp only [List.length_nil, List.replicate_zero, List.append_nil] at hentries hstored
      exact ⟨[], by simp [fillList, hnext, hentries, hstored], by simp [AllStored]⟩
  | scalar hnext hv hes ih =>
    refine fills_cons _ [] hnext (fun fuel hfuel => ⟨[], ?_, by simp [AllStored]⟩) ih
    obtain ⟨harray, hdocument⟩ := ne_of_convertScalar hv
    obtain ⟨fuel, rfl⟩ := exists_fuel hnext hfuel
    rw [convertValue, if_neg harray, if_neg hdocument, hv]
  | unimplemented hnext harray hdocument hv hes ih =>
    refine fills_cons .null [_] hnext (fun fuel hfuel => ⟨[], ?_, by simp [AllStored]⟩) ih
    obtain ⟨fuel, rfl⟩ := exists_fuel hnext hfuel
    rw [convertValue, if_neg harray, if_neg hdocument, hv]
  | array hnext htype hfs hes ihfs ih =>
    refine fills_cons _ _ hnext (fun fuel hfuel => ?_) ih
    obtain ⟨key, hmove⟩ := movesTo_of_next hnext
    have hless := hmove.recurse_lt (.inl htype)
    obtain ⟨fuel, rfl⟩ := exists_fuel hnext hfuel
    obtain ⟨levels, hlevels, hconvert, -⟩ :=
      convertList_of_fills hfs ihfs fuel (by omega)
    exact ⟨levels, by rw [convertValue, if_pos htype, hconvert], hlevels⟩
  | document hnext htype hfs hes ihfs ih =>
    refine fills_cons _ _ hnext (fun fuel hfuel => ?_) ih
    obtain ⟨key, hmove⟩ := movesTo_of_next hnext
    have hless := hmove.recurse_lt (.inr htype)
    obtain ⟨fuel, rfl⟩ := exists_fuel hnext hfuel
    obtain ⟨levels, hlevels, -, hconvert⟩ :=
      convertList_of_fills hfs ihfs fuel (by omega)
    exact ⟨levels, by rw [convertValue, if_neg (by simp [htype]), if_pos htype, hconvert], hlevels⟩

/-- `bson2list` returns on every document, with what the relation says, and stores as many entries
as it allocates at every level. -/
theorem bson2list_of_converts {b : Bson} (h : Converts opts (bsonIterInit b) es ws) :
    ∃ levels, bson2list opts b = some (.ok ⟨.namedList es, ws, levels⟩) ∧ AllStored levels := by
  have hfive := b.framed.five_le
  have hremaining : (bsonIterInit b).remaining = b.bytes.length - 4 := rfl
  obtain ⟨levels, hlevels, -, hconvert⟩ :=
    convertList_of_fills h (fills_of_converts h) b.bytes.length (by omega)
  exact ⟨levels, hconvert, hlevels⟩

end Mongolite
