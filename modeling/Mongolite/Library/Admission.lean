import Mathlib.Data.List.Basic

/-! # Offering items to a gate that remembers

A gate decides on each item in the light of everything it let in before. Items
are offered one by one, either skipping the refused ones or stopping at the
first. `admitted` counts the items before the first refusal; the two ways of
offering agree exactly as long as nothing follows a refusal.
-/

namespace Mongolite

variable {δ ε : Type*}

/-- Why an item is refused, given the items already inside; `none` lets it in. -/
abbrev Gate (δ ε : Type*) := List δ → δ → Option ε

namespace Gate

variable (g : Gate δ ε) {db ds es : List δ} {e : ε}

/-- Offer the items one by one and skip the refused ones. -/
def offerAll : List δ → List δ → List δ
  | db, [] => db
  | db, d :: ds =>
    match g db d with
    | none => offerAll (db ++ [d]) ds
    | some _ => offerAll db ds

def verdicts : List δ → List δ → List (Option ε)
  | _, [] => []
  | db, d :: ds =>
    match g db d with
    | none => none :: verdicts (db ++ [d]) ds
    | some e => some e :: verdicts db ds

def accepted (db ds : List δ) : ℕ := (g.verdicts db ds).countP Option.isNone

def admitted : List δ → List δ → ℕ
  | _, [] => 0
  | db, d :: ds =>
    match g db d with
    | none => admitted (db ++ [d]) ds + 1
    | some _ => 0

def refusal : List δ → List δ → Option ε
  | _, [] => none
  | db, d :: ds =>
    match g db d with
    | none => refusal (db ++ [d]) ds
    | some e => some e

/-- Offer the items one by one up to the first refusal. -/
def offerUntil (db ds : List δ) : List δ := db ++ ds.take (g.admitted db ds)

@[simp] theorem offerAll_nil (db : List δ) : g.offerAll db [] = db := rfl
@[simp] theorem verdicts_nil (db : List δ) : g.verdicts db [] = [] := rfl
@[simp] theorem admitted_nil (db : List δ) : g.admitted db [] = 0 := rfl
@[simp] theorem refusal_nil (db : List δ) : g.refusal db [] = none := rfl

@[simp] theorem length_verdicts (db ds : List δ) : (g.verdicts db ds).length = ds.length := by
  induction ds generalizing db with
  | nil => rfl
  | cons d ds ih => cases h : g db d <;> simp [verdicts, h, ih]

theorem offerAll_append (db ds es : List δ) :
    g.offerAll db (ds ++ es) = g.offerAll (g.offerAll db ds) es := by
  induction ds generalizing db with
  | nil => rfl
  | cons d ds ih => cases h : g db d <;> simp [offerAll, h, ih]

theorem verdicts_append (db ds es : List δ) :
    g.verdicts db (ds ++ es) = g.verdicts db ds ++ g.verdicts (g.offerAll db ds) es := by
  induction ds generalizing db with
  | nil => rfl
  | cons d ds ih => cases h : g db d <;> simp [verdicts, offerAll, h, ih]

theorem accepted_append (db ds es : List δ) :
    g.accepted db (ds ++ es) = g.accepted db ds + g.accepted (g.offerAll db ds) es := by
  simp [accepted, verdicts_append]

theorem admitted_le_length (db ds : List δ) : g.admitted db ds ≤ ds.length := by
  induction ds generalizing db with
  | nil => exact Nat.le_refl 0
  | cons d ds ih => cases h : g db d <;> simp [admitted, h, ih]

theorem offerUntil_eq_self_iff (db ds : List δ) :
    g.offerUntil db ds = db ↔ g.admitted db ds = 0 := by
  have hle := g.admitted_le_length db ds
  rw [offerUntil, List.append_right_eq_self, List.take_eq_nil_iff]
  constructor
  · rintro (h | rfl)
    · exact h
    · exact Nat.le_zero.mp hle
  · exact .inl

theorem refusal_eq_none_iff (db ds : List δ) :
    g.refusal db ds = none ↔ g.admitted db ds = ds.length := by
  induction ds generalizing db with
  | nil => simp
  | cons d ds ih => cases h : g db d <;> simp [refusal, admitted, h, ih]

theorem refusal_eq_some (h : g.refusal db ds = some e) :
    ∃ hlt : g.admitted db ds < ds.length,
      g (db ++ ds.take (g.admitted db ds)) ds[g.admitted db ds] = some e := by
  induction ds generalizing db with
  | nil => simp at h
  | cons d ds ih =>
    cases hd : g db d with
    | none =>
      simp only [refusal, hd] at h
      obtain ⟨hlt, hg⟩ := ih h
      refine ⟨by simpa [admitted, hd] using hlt, ?_⟩
      simpa [admitted, hd] using hg
    | some e' =>
      simp only [refusal, hd, Option.some.injEq] at h
      subst h
      simp [admitted, hd]

theorem refusal_append_of_none (h : g.refusal db ds = none) :
    g.refusal db (ds ++ es) = g.refusal (db ++ ds) es := by
  induction ds generalizing db with
  | nil => simp
  | cons d ds ih =>
    cases hd : g db d with
    | none =>
      have hds : g.refusal (db ++ [d]) ds = none := by simpa [refusal, hd] using h
      simpa [refusal, hd] using ih hds
    | some e => simp [refusal, hd] at h

theorem admitted_append_of_none (h : g.refusal db ds = none) :
    g.admitted db (ds ++ es) = ds.length + g.admitted (db ++ ds) es := by
  induction ds generalizing db with
  | nil => simp
  | cons d ds ih =>
    cases hd : g db d with
    | none =>
      have hds : g.refusal (db ++ [d]) ds = none := by simpa [refusal, hd] using h
      have := ih hds
      simp only [List.append_assoc, List.singleton_append] at this
      simp only [List.cons_append, admitted, hd, this, List.length_cons]
      omega
    | some e => simp [refusal, hd] at h

theorem refusal_append_of_some (h : g.refusal db ds = some e) :
    g.refusal db (ds ++ es) = some e ∧ g.admitted db (ds ++ es) = g.admitted db ds := by
  induction ds generalizing db with
  | nil => simp at h
  | cons d ds ih =>
    cases hd : g db d with
    | none => simpa [refusal, admitted, hd] using ih (by simpa [refusal, hd] using h)
    | some e' => simpa [refusal, admitted, hd] using h

/-- Only the last item of the batch may be refused. -/
def OnlyLastRefused (vs : List (Option ε)) : Prop := ∀ v ∈ vs.dropLast, v = none

instance (vs : List (Option ε)) : Decidable (OnlyLastRefused vs) :=
  decidable_of_iff (∀ v ∈ vs.dropLast, v.isNone) (by simp [OnlyLastRefused])

/-- Stopping at the first refusal tries every item iff only the last item can be refused. -/
theorem length_le_admitted_succ_iff (db ds : List δ) :
    ds.length ≤ g.admitted db ds + 1 ↔ OnlyLastRefused (g.verdicts db ds) := by
  induction ds generalizing db with
  | nil => simp [OnlyLastRefused]
  | cons d ds ih =>
    cases hd : g db d with
    | none =>
      rw [verdicts, hd, admitted, hd]
      simp only [List.length_cons, Nat.add_le_add_iff_right, ih]
      cases hv : g.verdicts (db ++ [d]) ds <;> simp [OnlyLastRefused]
    | some e =>
      cases ds with
      | nil => simp [verdicts, admitted, hd, OnlyLastRefused]
      | cons d' ds =>
        cases hd' : g db d' <;> simp [verdicts, admitted, hd, hd', OnlyLastRefused]

theorem offerUntil_eq_offerAll (h : OnlyLastRefused (g.verdicts db ds)) :
    g.offerUntil db ds = g.offerAll db ds ∧ g.admitted db ds = g.accepted db ds := by
  induction ds generalizing db with
  | nil => simp [offerUntil, accepted]
  | cons d ds ih =>
    cases hd : g db d with
    | none =>
      have hv : OnlyLastRefused (g.verdicts (db ++ [d]) ds) := by
        rw [← length_le_admitted_succ_iff] at h ⊢
        simpa [admitted, hd] using h
      obtain ⟨h₁, h₂⟩ := ih hv
      refine ⟨?_, ?_⟩
      · simpa [offerUntil, offerAll, admitted, hd] using h₁
      · simpa [admitted, accepted, verdicts, hd] using h₂
    | some e =>
      have hl : ds = [] := by
        rw [← length_le_admitted_succ_iff] at h
        simpa [admitted, hd] using h
      subst hl
      simp [offerUntil, offerAll, admitted, accepted, verdicts, hd]

end Gate

end Mongolite
