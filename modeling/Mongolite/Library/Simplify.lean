import Mathlib.Algebra.BigOperators.Group.List.Basic
import Mathlib.Data.List.Dedup
import Mathlib.Data.List.MinMax

/-! # Simplifying a list of vectors

`sapply` makes a vector, a matrix or a list of its results: a vector where each
has one element, a matrix where they are longer but all of one length, and the
list as it is otherwise. A vector has the highest type of its parts and keeps
none of their attributes.
-/

namespace Mongolite

/-- Vectors of several types, and lists. The elements of a vector are vectors of one element without
attributes, those of a list are its members. -/
structure Vectors (V K : Type) [LinearOrder K] where
  kind : V → K
  elems : V → List V
  coerce : K → V → V
  listKind : K
  kind_le : ∀ v, kind v ≤ listKind
  kind_elem : ∀ v, kind v ≠ listKind → ∀ e ∈ elems v, kind e = kind v
  kind_coerce : ∀ k v, k ≠ listKind → kind v ≤ k → ∀ e ∈ elems v, kind (coerce k e) = k
  coerce_self : ∀ v, coerce (kind v) v = v
  elems_list : ∀ v, kind v = listKind → elems v ≠ [v]

/-- A column of a table: its cells, and the rows and columns of a matrix. -/
structure Column (V : Type) where
  cells : List V
  dim : Option (ℕ × ℕ)

namespace Vectors

variable {V K : Type} [LinearOrder K] (R : Vectors V K) {v : V} {k : K} {xs : List V} {len : ℕ}

def length (v : V) : ℕ := (R.elems v).length

def top (xs : List V) : K := (xs.map R.kind).maximum.unbotD R.listKind

/-- `unlist` with `recursive = FALSE`. -/
def unlist (xs : List V) : List V :=
  let parts := xs.flatMap R.elems
  if R.top xs = R.listKind then parts else parts.map (R.coerce (R.top xs))

/-- `simplify2array` with `higher = FALSE`. -/
def simplify2array (xs : List V) : Column V :=
  match (xs.map R.length).dedup with
  | [len] =>
    if len = 1 then ⟨R.unlist xs, none⟩
    else if len > 1 then
      if len * xs.length = (R.unlist xs).length then ⟨R.unlist xs, some (len, xs.length)⟩
      else ⟨xs, none⟩
    else ⟨xs, none⟩
  | _ => ⟨xs, none⟩

def IsPlain (k : K) (v : V) : Prop := R.elems v = [v] ∧ R.kind v = k

theorem top_spec (hne : xs ≠ []) :
    (∃ v ∈ xs, R.kind v = R.top xs) ∧ ∀ v ∈ xs, R.kind v ≤ R.top xs := by
  have hmax : (xs.map R.kind).maximum ≠ ⊥ := by simpa [List.maximum_eq_bot] using hne
  obtain ⟨k, hk⟩ := WithBot.ne_bot_iff_exists.mp hmax
  have htop : R.top xs = k := by rw [top, ← hk, WithBot.unbotD_coe]
  obtain ⟨hmem, hle⟩ := List.maximum_eq_coe_iff.mp hk.symm
  rw [htop]
  exact ⟨List.mem_map.mp hmem, fun v hv => hle _ (List.mem_map_of_mem hv)⟩

theorem top_of_kind (hne : xs ≠ []) (h : ∀ v ∈ xs, R.kind v = k) : R.top xs = k := by
  obtain ⟨⟨v, hv, htop⟩, -⟩ := R.top_spec hne
  exact htop.symm.trans (h v hv)

theorem length_unlist (h : ∀ v ∈ xs, R.length v = len) :
    (R.unlist xs).length = len * xs.length := by
  have hparts : (xs.flatMap R.elems).length = len * xs.length := by
    have hmap : xs.map R.length = List.replicate xs.length len :=
      List.map_eq_replicate_iff.mpr h
    have hlength : xs.map (fun v => (R.elems v).length) = List.replicate xs.length len := hmap
    rw [List.length_flatMap, hlength, List.sum_replicate, Nat.nsmul_eq_mul, Nat.mul_comm]
  rw [unlist]
  split_ifs
  · exact hparts
  · rw [List.length_map, hparts]

theorem dedup_length_eq_singleton (hne : xs ≠ []) :
    (xs.map R.length).dedup = [len] ↔ ∀ v ∈ xs, R.length v = len := by
  constructor
  · intro h v hv
    have hmem : R.length v ∈ (xs.map R.length).dedup :=
      List.mem_dedup.mpr (List.mem_map_of_mem hv)
    rw [h] at hmem
    exact List.mem_singleton.mp hmem
  · intro h
    rw [List.map_eq_replicate_iff.mpr h]
    exact List.replicate_dedup (by simpa using hne)

def part (k : K) (v : V) : V :=
  if k = R.listKind then (R.elems v).headD v else R.coerce k ((R.elems v).headD v)

theorem elems_of_length_eq_one (h : R.length v = 1) : R.elems v = [(R.elems v).headD v] := by
  obtain ⟨e, he⟩ := List.length_eq_one_iff.mp h
  rw [he]
  rfl

theorem unlist_of_length_eq_one (h : ∀ v ∈ xs, R.length v = 1) :
    R.unlist xs = xs.map (R.part (R.top xs)) := by
  have hparts : xs.flatMap R.elems = xs.map fun v => (R.elems v).headD v := by
    rw [← List.flatMap_singleton' (xs.map _), List.flatMap_map]
    exact List.flatMap_congr fun v hv => R.elems_of_length_eq_one (h v hv)
  rw [unlist, hparts]
  split_ifs with htop
  · exact List.map_congr_left fun v hv => (if_pos htop).symm
  · rw [List.map_map]
    exact List.map_congr_left fun v hv => (if_neg htop).symm

theorem isPlain_of_part (hlist : k ≠ R.listKind) (hle : R.kind v ≤ k) (h : R.length v = 1)
    (hself : R.part k v = v) : R.IsPlain k v := by
  have helem := R.elems_of_length_eq_one h
  have hmem : (R.elems v).headD v ∈ R.elems v := by
    rw [helem]
    exact List.mem_singleton_self _
  rw [part, if_neg hlist] at hself
  have hkind : R.kind v = k :=
    (congrArg R.kind hself).symm.trans (R.kind_coerce k v hlist hle _ hmem)
  have helemkind : R.kind ((R.elems v).headD v) = k :=
    (R.kind_elem v (hkind ▸ hlist) _ hmem).trans hkind
  rw [← helemkind, R.coerce_self] at hself
  exact ⟨by rw [helem, hself], hkind⟩

theorem IsPlain.part_eq (h : R.IsPlain k v) : R.part k v = v := by
  rw [part, h.1]
  split_ifs
  · rfl
  · rw [← h.2]
    exact R.coerce_self v

theorem unlist_eq_self_iff (hne : xs ≠ []) (h : ∀ v ∈ xs, R.length v = 1) :
    R.unlist xs = xs ↔ ∃ k, ∀ v ∈ xs, R.IsPlain k v := by
  obtain ⟨⟨w, hw, hwtop⟩, hle⟩ := R.top_spec hne
  have hself : xs.map (R.part (R.top xs)) = xs ↔ ∀ v ∈ xs, R.part (R.top xs) v = v :=
    (Eq.congr_right (List.map_id xs).symm).trans List.map_inj_left
  rw [R.unlist_of_length_eq_one h, hself]
  constructor
  · intro heq
    have hlist : R.top xs ≠ R.listKind := by
      intro hlist
      have hw' := heq w hw
      rw [part, if_pos hlist] at hw'
      refine R.elems_list w (hwtop.trans hlist) ?_
      rw [R.elems_of_length_eq_one (h w hw), hw']
    exact ⟨R.top xs, fun v hv => R.isPlain_of_part hlist (hle v hv) (h v hv) (heq v hv)⟩
  · rintro ⟨k, hplain⟩ v hv
    have hk : k = R.top xs := (hplain w hw).2.symm.trans hwtop
    exact hk ▸ (hplain v hv).part_eq

theorem simplify2array_of_length_eq_one (hne : xs ≠ []) (h : ∀ v ∈ xs, R.length v = 1) :
    (R.simplify2array xs).cells = xs.map (R.part (R.top xs)) := by
  rw [simplify2array, (R.dedup_length_eq_singleton hne).mpr h, ← R.unlist_of_length_eq_one h]
  rfl

/-- Vectors that `sapply` returns as they are: of different lengths, all empty, or plain and all of
one type. -/
def Kept (xs : List V) : Prop :=
  (∃ v ∈ xs, ∃ w ∈ xs, R.length v ≠ R.length w) ∨ (∀ v ∈ xs, R.length v = 0) ∨
    ∃ k, ∀ v ∈ xs, R.IsPlain k v

theorem IsPlain.length_eq (h : R.IsPlain k v) : R.length v = 1 := by rw [length, h.1]; rfl

theorem kept_of_length_eq (h : ∀ v ∈ xs, R.length v = len) :
    R.Kept xs ↔ (∀ v ∈ xs, R.length v = 0) ∨ ∃ k, ∀ v ∈ xs, R.IsPlain k v := by
  refine or_iff_right ?_
  rintro ⟨v, hv, w, hw, hdiff⟩
  exact hdiff ((h v hv).trans (h w hw).symm)

/-- The cells of a column are the vectors that it is made of if and only if those are kept. -/
theorem cells_simplify2array_iff (hne : xs ≠ []) :
    (R.simplify2array xs).cells = xs ↔ R.Kept xs := by
  obtain ⟨w, hw⟩ := List.exists_mem_of_ne_nil xs hne
  by_cases hsame : ∀ v ∈ xs, R.length v = R.length w
  · rw [simplify2array, (R.dedup_length_eq_singleton hne).mpr hsame, R.kept_of_length_eq hsame]
    rcases hlen : R.length w with _ | _ | len
    · rw [hlen] at hsame
      exact iff_of_true rfl (.inl hsame)
    · rw [hlen] at hsame
      have hnone : ¬ ∀ v ∈ xs, R.length v = 0 := fun h => by simpa [hlen] using h w hw
      exact (R.unlist_eq_self_iff hne hsame).trans (or_iff_right hnone).symm
    · -- a matrix has more cells
      rw [hlen] at hsame
      have hcells := R.length_unlist hsame
      refine iff_of_false ?_ ?_
      · intro h
        dsimp only at h
        rw [if_neg (by omega), if_pos (by omega), if_pos hcells.symm] at h
        have hlength : (len + 1 + 1) * xs.length = 1 * xs.length := by
          rw [Nat.one_mul, ← hcells]
          exact congrArg List.length h
        have hpos : 0 < xs.length := List.length_pos_of_mem hw
        have := Nat.eq_of_mul_eq_mul_right hpos hlength
        omega
      · rintro (h | ⟨k, h⟩)
        · simpa [hlen] using h w hw
        · simpa [hlen] using (h w hw).length_eq
  · have hother : ∀ len, (xs.map R.length).dedup ≠ [len] := by
      intro len h
      have hall := (R.dedup_length_eq_singleton hne).mp h
      exact hsame fun v hv => (hall v hv).trans (hall w hw).symm
    refine iff_of_true ?_ (.inl ?_)
    · rw [simplify2array]
      split
      · exact absurd ‹_› (hother _)
      · rfl
    · by_contra hnone
      exact hsame fun v hv => by_contra fun hdiff => hnone ⟨v, hv, w, hw, hdiff⟩

end Vectors

end Mongolite
