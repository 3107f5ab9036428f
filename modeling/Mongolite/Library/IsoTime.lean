import Mongolite.Library.Calendar
import Mongolite.Library.Decimal

/-! # Date-times as text

The UTC date-times of ISO 8601 with a four-digit year and three decimals of the
seconds, and the calendar fields as `strftime` writes them. The two agree for the
years that have four digits.
-/

namespace Mongolite

variable {cs rest : List Char} {k n : ℕ} {t : CalendarTime}

def readDigits (k : ℕ) (cs : List Char) : Option (ℕ × List Char) :=
  if (cs.take k).length = k then (digitsValue (cs.take k)).map fun n => (n, cs.drop k) else none

def readChar (c : Char) : List Char → Option (List Char)
  | c' :: cs => if c' = c then some cs else none
  | [] => none

/-- `YYYY-MM-DDThh:mm:ss` -/
def readTime (cs : List Char) : Option (CalendarTime × List Char) := do
  let (year, cs) ← readDigits 4 cs
  let cs ← readChar '-' cs
  let (month, cs) ← readDigits 2 cs
  let cs ← readChar '-' cs
  let (day, cs) ← readDigits 2 cs
  let cs ← readChar 'T' cs
  let (hour, cs) ← readDigits 2 cs
  let cs ← readChar ':' cs
  let (minute, cs) ← readDigits 2 cs
  let cs ← readChar ':' cs
  let (second, cs) ← readDigits 2 cs
  return (⟨year, month, day, hour, minute, second⟩, cs)

/-- The instant, in milliseconds since 1970, that `YYYY-MM-DDThh:mm:ss.sssZ` denotes. -/
def isoInstant (cs : List Char) : Option ℤ := do
  let (t, cs) ← readTime cs
  let cs ← readChar '.' cs
  let (ms, cs) ← readDigits 3 cs
  if cs = ['Z'] ∧ t.Valid then some (t.seconds * 1000 + ms) else none

/-- `strftime` with the format `%Y-%m-%dT%H:%M:%S`; the year is a decimal number of any length. -/
def strftime (t : CalendarTime) : List Char :=
  decimal 0 t.year ++ '-' :: (decimal 2 t.month ++ '-' :: (decimal 2 t.day ++ 'T' ::
    (decimal 2 t.hour ++ ':' :: (decimal 2 t.minute ++ ':' :: decimal 2 t.second))))

theorem decimal_natCast (width n : ℕ) :
    decimal width (n : ℤ) = zeroPad width (Nat.toDigits 10 n) := by
  rw [decimal, if_neg (by omega), Int.natAbs_natCast]

theorem readDigits_decimal (hk : 0 < k) (h : n < 10 ^ k) (rest : List Char) :
    readDigits k (decimal k (n : ℤ) ++ rest) = some (n, rest) := by
  have hlen := length_zeroPad hk h
  rw [decimal_natCast, readDigits, List.take_left' hlen, List.drop_left' hlen, if_pos hlen,
    digitsValue_zeroPad]
  rfl

@[simp] theorem readChar_cons (c : Char) (cs : List Char) : readChar c (c :: cs) = some cs :=
  if_pos rfl

theorem readDigits_of_not_digit {c : Char} (hmem : c ∈ cs.take k) (hc : c.isDigit = false) :
    readDigits k cs = none := by
  rw [readDigits, digitsValue]
  split_ifs with hlen hdigits
  · rw [List.all_eq_true.mp hdigits.2 c hmem] at hc
    cases hc
  · rfl
  · rfl

theorem drop_of_readDigits (h : readDigits k cs = some (n, rest)) : rest = cs.drop k := by
  unfold readDigits at h
  split_ifs at h
  obtain ⟨_, -, hpair⟩ := Option.map_eq_some_iff.mp h
  exact (Prod.mk.inj hpair).2.symm

theorem readDigits_of_neg {x : ℤ} (hk : 0 < k) (hx : x < 0) (width : ℕ) (rest : List Char) :
    readDigits k (decimal width x ++ rest) = none := by
  obtain ⟨k, rfl⟩ := Nat.exists_eq_succ_of_ne_zero (Nat.pos_iff_ne_zero.mp hk)
  refine readDigits_of_not_digit (c := '-') ?_ rfl
  rw [decimal, if_pos hx, List.cons_append, List.take_succ_cons]
  exact List.mem_cons_self

theorem decimal_year (hlow : 1000 ≤ n) (hhigh : n < 10000) :
    decimal 0 (n : ℤ) = decimal 4 (n : ℤ) := by
  have hle := (Nat.length_toDigits_le_iff (b := 10) (n := n) (by decide)
    (show 0 < 4 by decide)).mpr hhigh
  have hge : ¬ (Nat.toDigits 10 n).length ≤ 3 := by
    rw [Nat.length_toDigits_le_iff (by decide) (by decide)]
    omega
  have hfour : (Nat.toDigits 10 n).length = 4 := by omega
  rw [decimal_natCast, decimal_natCast, zeroPad, zeroPad, hfour]

/-- Calendar fields in range with a year of four digits are read back. -/
theorem readTime_strftime (ht : t.Valid) (hlow : 1000 ≤ t.year) (hhigh : t.year < 10000)
    (rest : List Char) : readTime (strftime t ++ rest) = some (t, rest) := by
  obtain ⟨year, month, day, hour, minute, second⟩ := t
  obtain ⟨-, hmonth, -, hday, hhour, hminute, hsecond⟩ := ht
  simp only at hlow hhigh hmonth hday hhour hminute hsecond
  obtain ⟨n, rfl⟩ := Int.eq_ofNat_of_zero_le (show 0 ≤ year by omega)
  have hlen := monthLengths_getD_le n (month - 1)
  have h₁ := @readDigits_decimal 4 n (by decide) (by omega)
  have h₂ := @readDigits_decimal 2 month (by decide) (by omega)
  have h₃ := @readDigits_decimal 2 day (by decide) (by omega)
  have h₄ := @readDigits_decimal 2 hour (by decide) (by omega)
  have h₅ := @readDigits_decimal 2 minute (by decide) (by omega)
  have h₆ := @readDigits_decimal 2 second (by decide) (by omega)
  have hyear : decimal 0 (n : ℤ) = decimal 4 (n : ℤ) := decimal_year (by omega) (by omega)
  simp only [readTime, strftime, hyear, List.append_assoc, List.cons_append, h₁, h₂, h₃, h₄, h₅,
    h₆, readChar_cons, Option.bind_eq_bind, Option.bind_some, Option.pure_def]

theorem readTime_strftime_of_year (h : t.year < 1000 ∨ 10000 ≤ t.year) (rest : List Char) :
    readTime (strftime t ++ rest) = none := by
  obtain ⟨tail, htail⟩ : ∃ tail, strftime t ++ rest = decimal 0 t.year ++ '-' :: tail :=
    ⟨_, by simp only [strftime, List.append_assoc, List.cons_append]; rfl⟩
  rw [htail, readTime]
  by_cases hneg : t.year < 0
  · rw [readDigits_of_neg (by decide) hneg]
    rfl
  obtain ⟨n, hn⟩ := Int.eq_ofNat_of_zero_le (Int.not_lt.mp hneg)
  rw [hn] at h ⊢
  have hdigits : decimal 0 (n : ℤ) = Nat.toDigits 10 n := by
    simp [decimal_natCast, zeroPad]
  rw [hdigits]
  rcases h with hlow | hhigh
  · -- fewer than four digits, so the dash comes too early
    have hle := (Nat.length_toDigits_le_iff (b := 10) (n := n) (by decide)
      (show 0 < 3 by decide)).mpr (by omega)
    have hmem : '-' ∈ (Nat.toDigits 10 n ++ '-' :: tail).take 4 := by
      rw [List.take_append, List.mem_append]
      right
      obtain ⟨m, hm⟩ : ∃ m, 4 - (Nat.toDigits 10 n).length = m + 1 :=
        ⟨3 - (Nat.toDigits 10 n).length, by omega⟩
      rw [hm, List.take_succ_cons]
      exact List.mem_cons_self
    rw [readDigits_of_not_digit hmem rfl]
    rfl
  · -- a fifth digit stands where the dash should
    have hge : ¬ (Nat.toDigits 10 n).length ≤ 4 := by
      rw [Nat.length_toDigits_le_iff (by decide) (by decide)]
      omega
    rcases hread : readDigits 4 (Nat.toDigits 10 n ++ '-' :: tail) with _ | ⟨y, cs⟩
    · rfl
    · have hcs := drop_of_readDigits hread
      rw [List.drop_append_of_le_length (by omega)] at hcs
      obtain ⟨c, digits, hdrop⟩ := List.exists_cons_of_length_pos
        (l := (Nat.toDigits 10 n).drop 4) (by rw [List.length_drop]; omega)
      have hdigit : c.isDigit := Nat.isDigit_of_mem_toDigits (by decide) (by decide)
        (List.mem_of_mem_drop (hdrop ▸ List.mem_cons_self))
      have hdash : readChar '-' cs = none := by
        rw [hcs, hdrop, List.cons_append]
        refine if_neg ?_
        rintro rfl
        cases hdigit
      simp only [Option.bind_eq_bind, Option.bind_some, hdash, Option.bind_none]

end Mongolite
