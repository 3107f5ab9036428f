import Mathlib.Data.List.Basic
import Mathlib.Tactic.Ring

/-! # Consecutive pages of a list

`pages n xs` cuts a list into consecutive pages of `n` elements, the last one
possibly shorter. A page-wise computation threads a state through the pages and
stops at the first page that fails.
-/

namespace Mongolite

variable {α β ε σ : Type*} {n : ℕ} {xs : List α}

/-- The consecutive pages of a list, each of `n` elements but perhaps the last. -/
def pages (n : ℕ) (xs : List α) : List (List α) :=
  (List.range ((xs.length + n - 1) / n)).map fun i => (xs.drop (n * i)).take n

@[simp] theorem pages_nil (n : ℕ) : pages n ([] : List α) = [] := by
  cases n with
  | zero => simp [pages]
  | succ n => simp [pages, Nat.div_eq_of_lt]

theorem pages_cons (hn : 0 < n) (hx : xs ≠ []) :
    pages n xs = xs.take n :: pages n (xs.drop n) := by
  have hl : 0 < xs.length := List.length_pos_iff.mpr hx
  have hd : (xs.length + n - 1) / n = ((xs.drop n).length + n - 1) / n + 1 := by
    rw [List.length_drop]
    rcases Nat.lt_or_ge xs.length n with h | h
    · rw [show xs.length - n + n - 1 = n - 1 by omega, Nat.div_eq_of_lt (show n - 1 < n by omega),
        show xs.length + n - 1 = (xs.length - 1) + n by omega, Nat.add_div_right _ hn,
        Nat.div_eq_of_lt (by omega)]
    · rw [show xs.length + n - 1 = (xs.length - n + n - 1) + n by omega, Nat.add_div_right _ hn]
  simp only [pages, hd, List.range_succ_eq_map, List.map_cons, List.map_map, Nat.mul_zero,
    List.drop_zero, List.cons.injEq, true_and]
  refine List.map_congr_left fun i _ => ?_
  simp only [Function.comp_apply, List.drop_drop]
  congr 2
  simp only [Nat.succ_eq_add_one]
  ring

/-- Induction along the pages of a list. -/
theorem pages_induction {motive : List α → Prop} (hn : 0 < n) (nil : motive [])
    (page : ∀ xs, xs ≠ [] → motive (xs.drop n) → motive xs) (xs : List α) : motive xs := by
  induction h : xs.length using Nat.strong_induction_on generalizing xs with
  | _ m ih =>
    subst h
    rcases eq_or_ne xs [] with rfl | hx
    · exact nil
    · have hl : 0 < xs.length := List.length_pos_iff.mpr hx
      exact page xs hx (ih _ (by rw [List.length_drop]; omega) _ rfl)

theorem pages_of_length_le (hx : xs ≠ []) (h : xs.length ≤ n) : pages n xs = [xs] := by
  have hn : 0 < n := (List.length_pos_iff.mpr hx).trans_le h
  rw [pages_cons hn hx, List.take_of_length_le h, List.drop_of_length_le h, pages_nil]

@[simp] theorem flatten_pages (hn : 0 < n) (xs : List α) : (pages n xs).flatten = xs := by
  induction xs using pages_induction hn with
  | nil => simp
  | page xs hx ih => rw [pages_cons hn hx, List.flatten_cons, ih, List.take_append_drop]

theorem page_ne_nil (hn : 0 < n) : ∀ p ∈ pages n xs, p ≠ [] := by
  induction xs using pages_induction hn with
  | nil => simp
  | page xs hx ih =>
    rw [pages_cons hn hx]
    rintro p (_ | ⟨_, hp⟩)
    · exact fun h => (List.take_eq_nil_iff.mp h).elim (fun h => absurd h hn.ne') hx
    · exact ih p hp

theorem length_of_mem_dropLast_pages (hn : 0 < n) : ∀ p ∈ (pages n xs).dropLast, p.length = n := by
  induction xs using pages_induction hn with
  | nil => simp
  | page xs hx ih =>
    rw [pages_cons hn hx]
    rcases eq_or_ne (xs.drop n) [] with hd | hd
    · simp [hd]
    · have hne : pages n (xs.drop n) ≠ [] := by
        rw [pages_cons hn hd]
        exact List.cons_ne_nil _ _
      rw [List.dropLast_cons_of_ne_nil hne]
      rintro p (_ | ⟨_, hp⟩)
      · rw [List.length_take_of_le]
        rw [ne_eq, List.drop_eq_nil_iff, not_le] at hd
        exact hd.le
      · exact ih p hp

/-- Run a stateful, fallible step over the pages, up to the first page that fails. -/
def runPages (step : List α → σ → Except ε β × σ) : List (List α) → σ → Except ε (List β) × σ
  | [], s => (.ok [], s)
  | p :: ps, s =>
    match step p s with
    | (.error e, s') => (.error e, s')
    | (.ok b, s') =>
      match runPages step ps s' with
      | (.error e, s'') => (.error e, s'')
      | (.ok bs, s'') => (.ok (b :: bs), s'')

end Mongolite
