import Mathlib.Data.List.Basic

/-! # Cursors of the driver

A cursor gives its documents one at a time and then ends, or fails. Advancing a
cursor that has ended is itself an error, which the cursor keeps.
-/

namespace Mongolite

variable {δ : Type}

/-- A cursor: the documents still to come, how it then fails (if it does), whether it is done,
its error, and how often it was advanced after it had reported its end. -/
structure Cursor (δ : Type) where
  docs : List δ
  failure : Option String
  done : Bool
  error : Option String
  late : ℕ
  deriving DecidableEq, Repr

def Cursor.fresh (docs : List δ) (failure : Option String) : Cursor δ :=
  ⟨docs, failure, false, none, 0⟩

def mongocCursorNext (c : Cursor δ) : Option δ × Cursor δ :=
  if c.error.isSome then (none, { c with late := c.late + 1 })
  else if c.done then
    (none, { c with
      error := some "Cannot advance a completed or failed cursor.", late := c.late + 1 })
  else
    match c.docs with
    | d :: ds => (some d, { c with docs := ds })
    | [] => (none, { c with done := true, error := c.failure })

def mongocCursorError (c : Cursor δ) : Option String := c.error

def advance : ℕ → Cursor δ → List δ × Cursor δ
  | 0, c => ([], c)
  | n + 1, c =>
    match mongocCursorNext c with
    | (none, c') => ([], c')
    | (some d, c') =>
      let (ds, c'') := advance n c'
      (d :: ds, c'')

theorem advance_of_le {n : ℕ} {docs : List δ} (h : n ≤ docs.length) (failure : Option String) :
    advance n (.fresh docs failure) = (docs.take n, .fresh (docs.drop n) failure) := by
  induction n generalizing docs with
  | zero => rfl
  | succ n ih =>
    cases docs with
    | nil => exact absurd h (Nat.not_succ_le_zero n)
    | cons d ds =>
      have := ih (Nat.le_of_succ_le_succ h)
      simp only [Cursor.fresh] at this
      simp [advance, mongocCursorNext, Cursor.fresh, this]

theorem advance_of_lt {n : ℕ} {docs : List δ} (h : docs.length < n) (failure : Option String) :
    advance n (.fresh docs failure) = (docs, ⟨[], failure, true, failure, 0⟩) := by
  induction n generalizing docs with
  | zero => exact absurd h (Nat.not_lt_zero _)
  | succ n ih =>
    cases docs with
    | nil => rfl
    | cons d ds =>
      have := ih (Nat.lt_of_succ_lt_succ h)
      simp only [Cursor.fresh] at this
      simp [advance, mongocCursorNext, Cursor.fresh, this]

end Mongolite
