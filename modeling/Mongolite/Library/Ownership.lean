import Mathlib.Data.List.Basic
import Mathlib.Logic.Relation

/-! # Chains of owners

Objects are numbered in the order they were made, and each may own one older
object. What a set of roots keeps alive is what their chains of owned objects
reach; a marker that walks the chains finds exactly these.
-/

namespace Mongolite

def Owns (owned : ℕ → Option ℕ) (i j : ℕ) : Prop := owned i = some j

/-- What is reached from `i` by following owned objects. -/
abbrev Keeps (owned : ℕ → Option ℕ) : ℕ → ℕ → Prop := Relation.ReflTransGen (Owns owned)

def Reachable (owned : ℕ → Option ℕ) (roots : List ℕ) (i : ℕ) : Prop :=
  ∃ r ∈ roots, Keeps owned r i

/-- Every object only owns an older one. -/
def OwnsOlder (owned : ℕ → Option ℕ) : Prop := ∀ i j, owned i = some j → j < i

/-- The chain of owned objects from `i`, at most `fuel` of them. -/
def chain (owned : ℕ → Option ℕ) : ℕ → ℕ → List ℕ
  | 0, _ => []
  | fuel + 1, i =>
    match owned i with
    | none => [i]
    | some j => i :: chain owned fuel j

/-- Walk the chains of the roots; the chain of `r` has at most `r + 1` members. -/
def marked (owned : ℕ → Option ℕ) (roots : List ℕ) (i : ℕ) : Bool :=
  roots.any fun r => (chain owned (r + 1) r).contains i

variable {owned owned' : ℕ → Option ℕ} {roots roots' : List ℕ} {i j r fuel : ℕ}

theorem keeps_of_mem_chain (h : i ∈ chain owned fuel r) : Keeps owned r i := by
  induction fuel generalizing r with
  | zero => simp [chain] at h
  | succ fuel ih =>
    rw [chain] at h
    cases ho : owned r with
    | none =>
      obtain rfl : i = r := by simpa [ho] using h
      exact .refl
    | some j =>
      rcases List.mem_cons.mp (by simpa only [ho] using h) with rfl | h
      · exact .refl
      · exact .head ho (ih h)

theorem mem_chain_of_keeps (ho : OwnsOlder owned) (hr : r < fuel) (h : Keeps owned r i) :
    i ∈ chain owned fuel r := by
  induction fuel generalizing r with
  | zero => exact absurd hr (Nat.not_lt_zero r)
  | succ fuel ih =>
    rw [chain]
    rcases Relation.ReflTransGen.cases_head h with rfl | ⟨j, hj, hji⟩
    · cases owned r <;> simp
    · have hjr : j < r := ho r j hj
      have hj' : owned r = some j := hj
      rw [hj']
      exact List.mem_cons_of_mem r (ih (by omega) hji)

theorem reachable_of_marked (h : marked owned roots i = true) : Reachable owned roots i := by
  obtain ⟨r, hr, hi⟩ := List.any_eq_true.mp h
  exact ⟨r, hr, keeps_of_mem_chain (List.contains_iff_mem.mp hi)⟩

theorem marked_root (h : r ∈ roots) : marked owned roots r = true := by
  refine List.any_eq_true.mpr ⟨r, h, ?_⟩
  rw [chain]
  cases owned r <;> simp

theorem marked_iff (ho : OwnsOlder owned) : marked owned roots i = true ↔
    Reachable owned roots i := by
  refine ⟨reachable_of_marked, ?_⟩
  rintro ⟨r, hr, h⟩
  have hi := mem_chain_of_keeps ho (Nat.lt_succ_self r) h
  exact List.any_eq_true.mpr ⟨r, hr, List.contains_iff_mem.mpr hi⟩

theorem Reachable.root (h : r ∈ roots) : Reachable owned roots r := ⟨r, h, .refl⟩

theorem Reachable.next (h : Reachable owned roots i) (ho : owned i = some j) :
    Reachable owned roots j := by
  obtain ⟨r, hr, hi⟩ := h
  exact ⟨r, hr, hi.tail ho⟩

theorem Reachable.mono (ho : ∀ i j, owned' i = some j → owned i = some j)
    (hr : ∀ r ∈ roots', Reachable owned roots r) (h : Reachable owned' roots' i) :
    Reachable owned roots i := by
  obtain ⟨r, hr', hi⟩ := h
  induction hi with
  | refl => exact hr r hr'
  | tail _ hb ih => exact ih.next (ho _ _ hb)

/-- A root whose chain is `P` all along only keeps alive what is `P`. -/
theorem Keeps.of_closed {P : ℕ → Prop} (hr : P r) (hstep : ∀ i j, P i → owned i = some j → P j)
    (h : Keeps owned r i) : P i := by
  induction h with
  | refl => exact hr
  | tail _ hb ih => exact hstep _ _ ih hb

end Mongolite
