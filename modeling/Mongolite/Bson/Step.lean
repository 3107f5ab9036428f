import Mathlib.Data.List.GetD
import Mathlib.Data.List.TakeWhile
import Mongolite.Bson.Iter

/-! # Steps of the iterator

An iterator that moves on keeps its bytes, finds a key that ends in a zero byte,
and leaves fewer bytes to go. An embedded document or array lies within the
element.
-/

namespace Mongolite

variable {data : List UInt8} {start o z l : ℕ} {f : Fields} {it it' : BsonIter}

theorem findZero_eq_some (h : findZero data o = some z) :
    ∃ key : List UInt8, 0 ∉ key ∧ data.drop o = key ++ 0 :: data.drop (z + 1) ∧
      z = o + key.length := by
  obtain ⟨i, hi, rfl⟩ := Option.map_eq_some_iff.mp h
  obtain ⟨hlt, hzero, hbefore⟩ := List.findIdx?_eq_some_iff_getElem.mp hi
  refine ⟨(data.drop o).take i, ?_, ?_, ?_⟩
  · intro hmem
    obtain ⟨j, hj, heq⟩ := List.getElem_of_mem hmem
    have hji : j < i := lt_of_lt_of_le hj (List.length_take_le i _)
    rw [List.getElem_take] at heq
    exact absurd (beq_of_eq heq) (hbefore j hji)
  · have hsplit : data.drop o = (data.drop o).take i ++ (data.drop o).drop i :=
      (List.take_append_drop i _).symm
    have hdrop : (data.drop o).drop i = 0 :: data.drop (o + i + 1) := by
      rw [List.drop_eq_getElem_cons hlt, eq_of_beq hzero, List.drop_drop]
      rfl
    rw [hdrop] at hsplit
    exact hsplit
  · rw [List.length_take]
    omega

theorem findZero_append {key : List UInt8} (pre rest : List UInt8) (hkey : 0 ∉ key) :
    findZero (pre ++ (key ++ 0 :: rest)) pre.length = some (pre.length + key.length) := by
  have hidx : (key ++ 0 :: rest).findIdx? (· == 0) = some key.length := by
    rw [List.findIdx?_append, List.findIdx?_eq_none_iff.mpr]
    · simp [List.findIdx?_cons]
    · intro b hb
      rw [beq_eq_false_iff_ne]
      rintro rfl
      exact hkey hb
  rw [findZero, List.drop_left, hidx]
  rfl

theorem cString_append_zero (s rest : List UInt8) : cString (s ++ 0 :: rest) = cString s := by
  unfold cString
  rw [List.takeWhile_append]
  split
  · rename_i hall
    rw [List.takeWhile_cons_of_neg (by simp), List.append_nil,
      (List.takeWhile_prefix _).eq_of_length hall]
  · rfl

theorem cString_of_not_mem {s : List UInt8} (h : 0 ∉ s) : cString s = s := by
  refine List.takeWhile_eq_self_iff.mpr fun b hb => ?_
  have hb0 : b ≠ 0 := fun h0 => h (h0 ▸ hb)
  simpa using hb0

theorem le_nextOff {t : Option BsonType} (h : elementFields data start o t = .ok f) :
    o ≤ f.nextOff := by
  rcases t with _ | t
  · cases h
  cases t
  case eod => cases h
  case regex =>
    simp only [elementFields] at h
    split at h
    · cases h
    · rename_i eor heor
      split at h
      · cases h
      · rename_i eoo heoo
        obtain ⟨_, -, -, hz⟩ := findZero_eq_some heor
        obtain ⟨_, -, -, hz'⟩ := findZero_eq_some heoo
        obtain rfl := Except.ok.inj h
        simp only
        omega
  all_goals
    simp only [elementFields] at h
    try split_ifs at h
    all_goals
      cases h
      all_goals
        simp only
        omega

/-- What it takes to move on from `it` to an element with this key at `it'`. -/
structure MovesTo (it it' : BsonIter) (key : List UInt8) : Prop where
  raw_eq : it'.raw = it.raw
  key_zero : 0 ∉ key
  split : it.data.drop it.nextOff =
    byteAt it.data it.nextOff :: (key ++ 0 :: it.data.drop it'.d1)
  d1_eq : it'.d1 = it.nextOff + key.length + 2
  type_eq : it'.type = it.nextOff
  key_eq : it'.key = it.nextOff + 1
  fields : elementFields it.data it.nextOff it'.d1 (bsonIterType it') =
    .ok ⟨it'.d2, it'.d3, it'.d4, it'.nextOff⟩
  inside : it'.nextOff < it.data.length

theorem movesTo_of_next (h : bsonIterNext it = (true, it')) : ∃ key, MovesTo it it' key := by
  unfold bsonIterNext at h
  cases hraw : it.raw with
  | none => simp [hraw] at h
  | some data =>
    have hdata : it.data = data := by simp [BsonIter.data, hraw]
    cases hz : findZero data (it.nextOff + 1) with
    | none => simp [hraw, hz] at h
    | some z =>
      cases hf : elementFields data it.nextOff (z + 1)
          (bsonTypeOf (byteAt data it.nextOff)) with
      | error e => simp [hraw, hz, hf] at h
      | ok f =>
        simp only [hraw, hz, hf] at h
        split_ifs at h with hge
        · simp at h
        · obtain ⟨key, hkey, hsplit, rfl⟩ := findZero_eq_some hz
          obtain rfl := (Prod.mk.inj h).2
          refine ⟨key, hraw.symm, hkey, ?_, by simp only; omega, rfl, rfl, ?_, ?_⟩
          · rw [hdata, ← hsplit]
            have hlt : it.nextOff < data.length := by
              have hlen := congrArg List.length hsplit
              simp only [List.length_drop, List.length_append, List.length_cons] at hlen
              omega
            rw [List.drop_eq_getElem_cons hlt, byteAt, List.getD_eq_getElem _ _ hlt]
          · rw [hdata, ← hf]
            rfl
          · rw [hdata]
            exact Nat.lt_of_not_le hge

namespace MovesTo

variable {key : List UInt8} (h : MovesTo it it' key)

include h

theorem data_eq : it'.data = it.data := by
  rw [BsonIter.data, h.raw_eq, BsonIter.data]

theorem d1_le_nextOff : it'.d1 ≤ it'.nextOff := le_nextOff h.fields

/-- The element is a type byte, a key, a zero byte and a value; the rest follows it. -/
theorem drop_eq : it.data.drop it.nextOff =
    byteAt it.data it.nextOff :: (key ++ 0 ::
      ((it.data.drop it'.d1).take (it'.nextOff - it'.d1) ++ it.data.drop it'.nextOff)) := by
  have hle := h.d1_le_nextOff
  have hrest : (it.data.drop it'.d1).drop (it'.nextOff - it'.d1) = it.data.drop it'.nextOff := by
    rw [List.drop_drop]
    congr 1
    omega
  rw [h.split, ← hrest, List.take_append_drop]

end MovesTo

def BsonIter.remaining (it : BsonIter) : ℕ := it.data.length - it.nextOff

theorem MovesTo.remaining_lt {key : List UInt8} (h : MovesTo it it' key) :
    it'.remaining + 2 ≤ it.remaining := by
  have hd1 := h.d1_eq
  have hle := h.d1_le_nextOff
  have hlt := h.inside
  rw [BsonIter.remaining, BsonIter.remaining, h.data_eq]
  omega

def BsonIter.embedded (it : BsonIter) : List UInt8 :=
  (it.data.drop it.d1).take (readU32le (it.data.drop it.d1))

theorem MovesTo.embedded_spec {key : List UInt8} (h : MovesTo it it' key)
    (htype : bsonIterType it' = some .array ∨ bsonIterType it' = some .document) :
    it'.embedded.length = readU32le (it.data.drop it'.d1) ∧
      it'.nextOff = it'.d1 + readU32le (it.data.drop it'.d1) ∧
      it'.d1 + 4 < it.data.length := by
  have hf := h.fields
  have hlen : ∀ l, l ≤ it.data.length - it'.d1 → ((it.data.drop it'.d1).take l).length = l := by
    intro l hl
    rw [List.length_take, List.length_drop]
    omega
  have hsplit : it'.d1 < it.data.length - 4 ∧
      readU32le (it.data.drop it'.d1) ≤ it.data.length - it'.d1 ∧
      it'.nextOff = it'.d1 + readU32le (it.data.drop it'.d1) := by
    rcases htype with htype | htype <;>
    · rw [htype] at hf
      simp only [elementFields] at hf
      split_ifs at hf with hshort hlong
      simp only [Except.ok.injEq, Fields.mk.injEq] at hf
      exact ⟨by omega, by omega, hf.2.2.2.symm⟩
  rw [BsonIter.embedded, h.data_eq]
  exact ⟨hlen _ hsplit.2.1, hsplit.2.2, by omega⟩

theorem MovesTo.recurse_lt {key : List UInt8} (h : MovesTo it it' key)
    (htype : bsonIterType it' = some .array ∨ bsonIterType it' = some .document) :
    (bsonIterRecurse it').remaining + 3 ≤ it.remaining := by
  obtain ⟨hlen, hnext, hfour⟩ := h.embedded_spec htype
  have hd1 := h.d1_eq
  have hlt := h.inside
  have hchild : (bsonIterRecurse it').remaining = it'.embedded.length - 4 := rfl
  rw [hchild, BsonIter.remaining]
  omega

end Mongolite
