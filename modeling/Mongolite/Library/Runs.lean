import Mathlib.Data.List.Basic

/-! # Runs of a step function

A run applies actions in turn. A property that every step keeps, as long as the
step meets a condition on the state it is taken in, holds throughout every run
whose steps all meet the condition.
-/

namespace Mongolite

variable {σ α : Type*} {step : σ → α → σ} {ok : σ → α → Prop} {s : σ} {a : α} {as bs : List α}

def run (step : σ → α → σ) (s : σ) (as : List α) : σ := as.foldl step s

@[simp] theorem run_cons (step : σ → α → σ) (s : σ) (a : α) (as : List α) :
    run step s (a :: as) = run step (step s a) as := rfl

theorem run_append (step : σ → α → σ) (s : σ) (as bs : List α) :
    run step s (as ++ bs) = run step (run step s as) bs :=
  List.foldl_append

/-- Every step of the run meets a condition on the state it is taken in. -/
def Meets (step : σ → α → σ) (ok : σ → α → Prop) : σ → List α → Prop
  | _, [] => True
  | s, a :: as => ok s a ∧ Meets step ok (step s a) as

@[simp] theorem meets_cons :
    Meets step ok s (a :: as) ↔ ok s a ∧ Meets step ok (step s a) as := Iff.rfl

theorem meets_true (step : σ → α → σ) (s : σ) (as : List α) :
    Meets step (fun _ _ => True) s as := by
  induction as generalizing s with
  | nil => trivial
  | cons a as ih => exact ⟨trivial, ih (step s a)⟩

instance decidableMeets [∀ s a, Decidable (ok s a)] (s : σ) (as : List α) :
    Decidable (Meets step ok s as) :=
  match as with
  | [] => isTrue trivial
  | a :: as =>
    have := decidableMeets (step s a) as
    inferInstanceAs (Decidable (ok s a ∧ Meets step ok (step s a) as))

/-- An invariant of the steps that meet the condition holds along the runs that meet it. -/
theorem run_invariant {inv : σ → Prop} (hstep : ∀ s a, inv s → ok s a → inv (step s a))
    (hs : inv s) (h : Meets step ok s as) : inv (run step s as) := by
  induction as generalizing s with
  | nil => exact hs
  | cons a as ih => exact ih (hstep s a hs h.1) h.2

/-- Where a step keeps the property exactly if it meets the condition, the property holds throughout
a run exactly if all steps do. -/
theorem throughout_iff_meets {P : σ → Prop} (hs : P s)
    (hstep : ∀ s a, P s → (P (step s a) ↔ ok s a)) :
    (∀ bs, bs <+: as → P (run step s bs)) ↔ Meets step ok s as := by
  induction as generalizing s with
  | nil =>
    refine iff_of_true (fun bs hbs => ?_) trivial
    rw [List.prefix_nil.mp hbs]
    exact hs
  | cons a as ih =>
    constructor
    · intro h
      have ha : P (step s a) := h [a] (by simp)
      refine ⟨(hstep s a hs).mp ha, (ih ha).mp fun bs hbs => ?_⟩
      exact h (a :: bs) (List.cons_prefix_cons.mpr ⟨rfl, hbs⟩)
    · rintro ⟨hok, hrest⟩ bs hbs
      have ha : P (step s a) := (hstep s a hs).mpr hok
      cases bs with
      | nil => exact hs
      | cons b bs =>
        obtain ⟨rfl, hprefix⟩ := List.cons_prefix_cons.mp hbs
        exact (ih ha).mpr hrest bs hprefix

/-- Two runs stay related when the second one skips the actions that `f` maps to none. -/
theorem run_simulation {τ β : Type*} {step' : τ → β → τ} {f : α → Option β} {R : σ → τ → Prop}
    (hskip : ∀ s t a, R s t → ok s a → f a = none → R (step s a) t)
    (hstep : ∀ s t a b, R s t → ok s a → f a = some b → R (step s a) (step' t b))
    {t : τ} (hR : R s t) (h : Meets step ok s as) :
    R (run step s as) (run step' t (as.filterMap f)) := by
  induction as generalizing s t with
  | nil => exact hR
  | cons a as ih =>
    cases hf : f a with
    | none =>
      rw [List.filterMap_cons_none hf]
      exact ih (hskip s t a hR h.1 hf) h.2
    | some b =>
      rw [List.filterMap_cons_some hf]
      exact ih (hstep s t a b hR h.1 hf) h.2

end Mongolite
