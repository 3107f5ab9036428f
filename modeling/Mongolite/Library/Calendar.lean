import Mathlib.Algebra.BigOperators.Group.List.Basic
import Mathlib.Algebra.GroupWithZero.Nat
import Mathlib.Data.Int.Notation
import Mathlib.Data.List.GetD
import Mathlib.Tactic.SplitIfs

/-! # The proleptic Gregorian calendar

Calendar dates and times of day in UTC, the number of seconds since 1970 that
they stand for, and the calendar fields of a number of seconds.
-/

namespace Mongolite

/-- Where the position `n` lies in consecutive blocks of these lengths: the index of the block and
the position in it. -/
def locate : List ℕ → ℕ → ℕ × ℕ
  | [], n => (0, n)
  | l :: ls, n => if n < l then (0, n) else ((locate ls (n - l)).1 + 1, (locate ls (n - l)).2)

theorem locate_spec {ls : List ℕ} {n : ℕ} (h : n < ls.sum) :
    (locate ls n).1 < ls.length ∧ (locate ls n).2 < ls.getD (locate ls n).1 0 ∧
      (ls.take (locate ls n).1).sum + (locate ls n).2 = n := by
  induction ls generalizing n with
  | nil => simp at h
  | cons l ls ih =>
    rw [List.sum_cons] at h
    unfold locate
    split_ifs with hlt
    · simp [hlt]
    · obtain ⟨hidx, hoff, hsum⟩ := ih (n := n - l) (by omega)
      refine ⟨?_, ?_, ?_⟩
      · rw [List.length_cons]
        omega
      · rw [List.getD_cons_succ]
        exact hoff
      · rw [List.take_succ_cons, List.sum_cons]
        omega

def isLeap (y : ℤ) : Bool := y % 4 = 0 ∧ (y % 100 ≠ 0 ∨ y % 400 = 0)

def monthLengths (y : ℤ) : List ℕ :=
  [31, if isLeap y then 29 else 28, 31, 30, 31, 30, 31, 31, 30, 31, 30, 31]

theorem monthLengths_getD_le (y : ℤ) (i : ℕ) : (monthLengths y).getD i 0 ≤ 31 := by
  have hall : ∀ l ∈ monthLengths y, l ≤ 31 := by
    unfold monthLengths
    cases isLeap y <;> decide
  rcases Nat.lt_or_ge i (monthLengths y).length with hlt | hge
  · rw [List.getD_eq_getElem _ _ hlt]
    exact hall _ (List.getElem_mem hlt)
  · rw [List.getD_eq_default _ _ hge]
    exact Nat.zero_le 31

def daysBeforeYear (y : ℤ) : ℤ := 365 * (y - 1) + (y - 1) / 4 - (y - 1) / 100 + (y - 1) / 400

/-- A broken-down time; months and days count from 1. -/
structure CalendarTime where
  year : ℤ
  month : ℕ
  day : ℕ
  hour : ℕ
  minute : ℕ
  second : ℕ
  deriving DecidableEq, Repr

namespace CalendarTime

def Valid (t : CalendarTime) : Prop :=
  1 ≤ t.month ∧ t.month ≤ 12 ∧ 1 ≤ t.day ∧ t.day ≤ (monthLengths t.year).getD (t.month - 1) 0 ∧
    t.hour < 24 ∧ t.minute < 60 ∧ t.second < 60

instance (t : CalendarTime) : Decidable t.Valid :=
  inferInstanceAs (Decidable (_ ∧ _))

def days (t : CalendarTime) : ℤ :=
  daysBeforeYear t.year + ((monthLengths t.year).take (t.month - 1)).sum + (t.day - 1 : ℕ) - 719162

def seconds (t : CalendarTime) : ℤ :=
  t.days * 86400 + t.hour * 3600 + t.minute * 60 + t.second

end CalendarTime

def yearOfDays (n : ℤ) : ℤ :=
  let y := n * 400 / 146097 + 1
  if n < daysBeforeYear y then y - 1 else if daysBeforeYear (y + 1) ≤ n then y + 1 else y

/-- The calendar fields of a number of seconds since the start of 1970. -/
def gmtime (secs : ℤ) : CalendarTime :=
  let n := secs / 86400 + 719162
  let rem := (secs % 86400).toNat
  let year := yearOfDays n
  let (month, day) := locate (monthLengths year) (n - daysBeforeYear year).toNat
  ⟨year, month + 1, day + 1, rem / 3600, rem / 60 % 60, rem % 60⟩

theorem yearOfDays_spec (n : ℤ) :
    daysBeforeYear (yearOfDays n) ≤ n ∧ n < daysBeforeYear (yearOfDays n + 1) := by
  unfold yearOfDays daysBeforeYear
  simp only
  split_ifs <;> omega

theorem sum_monthLengths (y : ℤ) :
    ((monthLengths y).sum : ℤ) = daysBeforeYear (y + 1) - daysBeforeYear y := by
  unfold monthLengths isLeap daysBeforeYear
  split_ifs with h <;> simp at h ⊢ <;> omega

theorem locate_monthLengths (n : ℤ) :
    let year := yearOfDays n
    let p := locate (monthLengths year) (n - daysBeforeYear year).toNat
    p.1 < 12 ∧ p.2 < (monthLengths year).getD p.1 0 ∧
      daysBeforeYear year + ((monthLengths year).take p.1).sum + p.2 = n := by
  obtain ⟨hle, hlt⟩ := yearOfDays_spec n
  have hsum := sum_monthLengths (yearOfDays n)
  obtain ⟨hmonth, hday, htotal⟩ := locate_spec
    (show (n - daysBeforeYear (yearOfDays n)).toNat < (monthLengths (yearOfDays n)).sum by omega)
  refine ⟨hmonth, hday, ?_⟩
  omega

theorem gmtime_valid (secs : ℤ) : (gmtime secs).Valid := by
  obtain ⟨hmonth, hday, -⟩ := locate_monthLengths (secs / 86400 + 719162)
  refine ⟨Nat.le_add_left 1 _, hmonth, Nat.le_add_left 1 _, ?_, ?_, ?_, ?_⟩
  · exact hday
  all_goals
    simp only [gmtime]
    omega

@[simp] theorem seconds_gmtime (secs : ℤ) : (gmtime secs).seconds = secs := by
  obtain ⟨-, -, htotal⟩ := locate_monthLengths (secs / 86400 + 719162)
  simp only [CalendarTime.seconds, CalendarTime.days, gmtime, Nat.add_sub_cancel]
  omega

theorem daysBeforeYear_mono {y z : ℤ} (h : y ≤ z) : daysBeforeYear y ≤ daysBeforeYear z := by
  unfold daysBeforeYear
  omega

/-- The year is at least `y` from the first second of `y` on. -/
theorem le_year_gmtime_iff (y secs : ℤ) :
    y ≤ (gmtime secs).year ↔ (daysBeforeYear y - 719162) * 86400 ≤ secs := by
  obtain ⟨hle, hlt⟩ := yearOfDays_spec (secs / 86400 + 719162)
  have hyear : (gmtime secs).year = yearOfDays (secs / 86400 + 719162) := rfl
  rw [hyear]
  constructor
  · intro h
    have hmono := daysBeforeYear_mono h
    omega
  · intro h
    by_contra hlater
    have hmono := daysBeforeYear_mono (show yearOfDays (secs / 86400 + 719162) + 1 ≤ y by omega)
    omega

example : gmtime 951782400 = ⟨2000, 2, 29, 0, 0, 0⟩ := by decide

end Mongolite
