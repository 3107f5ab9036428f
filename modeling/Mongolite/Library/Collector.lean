import Mathlib.Data.Nat.Notation
import Mathlib.Logic.Function.Basic
import Mathlib.Tactic.SplitIfs
import Mathlib.Tactic.ByContra

/-! # Objects with finalizers

Objects are numbered in the order they are made. A collection marks unreferenced
objects, perhaps not all of them, and what is marked is finalized some time
later; a marked object must not be referenced again before that. A weak
reference loses its key when the key is finalized.
-/

namespace Mongolite

/-- How many objects were made, how often each is referenced, which ones wait for their finalizer,
and which ones are finalized. -/
structure Collector where
  made : ℕ
  refs : ℕ → ℕ
  ready : ℕ → Bool
  finalized : ℕ → Bool

namespace Collector

variable {g : Collector} {i : ℕ}

def empty : Collector := ⟨0, fun _ => 0, fun _ => false, fun _ => false⟩

def make (g : Collector) : Collector :=
  { g with made := g.made + 1, refs := Function.update g.refs g.made 1 }

def hold (g : Collector) (i : ℕ) : Collector :=
  { g with refs := Function.update g.refs i (g.refs i + 1) }

def drop (g : Collector) (i : ℕ) : Collector :=
  { g with refs := Function.update g.refs i (g.refs i - 1) }

def collect (g : Collector) (found : List ℕ) : Collector :=
  { g with ready := fun i =>
      g.ready i || (found.contains i && i < g.made && g.refs i == 0 && !g.finalized i) }

def finalize (g : Collector) : Collector :=
  { g with ready := fun _ => false, finalized := fun i => g.finalized i || g.ready i }

/-- The key of a weak reference after the marked objects are finalized. -/
def clearKey (g : Collector) (key : Option ℕ) : Option ℕ := key.filter fun i => !g.ready i

theorem refs_make (g : Collector) (i : ℕ) :
    g.make.refs i = if i = g.made then 1 else g.refs i := Function.update_apply ..

theorem refs_hold (g : Collector) (i j : ℕ) :
    (g.hold i).refs j = if j = i then g.refs i + 1 else g.refs j := Function.update_apply ..

theorem refs_drop (g : Collector) (i j : ℕ) :
    (g.drop i).refs j = if j = i then g.refs i - 1 else g.refs j := Function.update_apply ..

theorem refs_drop_le (g : Collector) (i j : ℕ) : (g.drop i).refs j ≤ g.refs j := by
  rw [refs_drop]
  split_ifs with h
  · exact h ▸ Nat.sub_le _ _
  · exact Nat.le_refl _

/-- What is referenced is neither finalized nor about to be. -/
structure Sound (g : Collector) : Prop where
  alive : ∀ i, 0 < g.refs i → i < g.made ∧ g.ready i = false ∧ g.finalized i = false
  fresh : ∀ i, g.made ≤ i → g.ready i = false ∧ g.finalized i = false

theorem Sound.empty : Collector.empty.Sound := by
  constructor
  · intro i h
    exact absurd h (Nat.lt_irrefl 0)
  · exact fun _ _ => ⟨rfl, rfl⟩

theorem Sound.make (h : g.Sound) : g.make.Sound := by
  constructor
  · intro i hi
    rw [refs_make] at hi
    split_ifs at hi with heq
    · subst heq
      exact ⟨Nat.lt_succ_self _, h.fresh g.made (Nat.le_refl _)⟩
    · obtain ⟨hlt, hrest⟩ := h.alive i hi
      exact ⟨Nat.lt_succ_of_lt hlt, hrest⟩
  · exact fun i hi => h.fresh i (Nat.le_of_succ_le hi)

theorem Sound.hold (h : g.Sound) (hlt : i < g.made) (hready : g.ready i = false)
    (hfinal : g.finalized i = false) : (g.hold i).Sound := by
  refine ⟨fun j hj => ?_, h.fresh⟩
  rw [refs_hold] at hj
  split_ifs at hj with heq
  · subst heq
    exact ⟨hlt, hready, hfinal⟩
  · exact h.alive j hj

theorem Sound.drop (h : g.Sound) (i : ℕ) : (g.drop i).Sound :=
  ⟨fun j hj => h.alive j (Nat.lt_of_lt_of_le hj (refs_drop_le g i j)), h.fresh⟩

theorem Sound.collect (h : g.Sound) (found : List ℕ) : (g.collect found).Sound := by
  constructor
  · intro i hi
    obtain ⟨hlt, hready, hfinal⟩ := h.alive i hi
    refine ⟨hlt, ?_, hfinal⟩
    have hne : g.refs i ≠ 0 := Nat.pos_iff_ne_zero.mp hi
    simp [Collector.collect, hready, hne]
  · intro i hi
    obtain ⟨hready, hfinal⟩ := h.fresh i hi
    refine ⟨?_, hfinal⟩
    have hge : ¬ i < g.made := Nat.not_lt_of_le hi
    simp [Collector.collect, hready, hge]

theorem Sound.finalize (h : g.Sound) : g.finalize.Sound := by
  constructor
  · intro i hi
    obtain ⟨hlt, hready, hfinal⟩ := h.alive i hi
    exact ⟨hlt, rfl, by simp [Collector.finalize, hready, hfinal]⟩
  · intro i hi
    obtain ⟨hready, hfinal⟩ := h.fresh i hi
    exact ⟨rfl, by simp [Collector.finalize, hready, hfinal]⟩

theorem clearKey_eq_some {key : Option ℕ} :
    g.clearKey key = some i ↔ key = some i ∧ g.ready i = false := by
  simp [clearKey, Option.filter_eq_some_iff]

end Collector

end Mongolite
