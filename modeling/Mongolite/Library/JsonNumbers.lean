import Mongolite.Library.DecimalText
import Mongolite.Library.JsonSpelling

/-! # Numbers in JSON

Which texts are numbers of JSON: the digits of an integer, and those with a point
or an exponent after them.
-/

namespace Mongolite.Json

variable {text whole tail : List Char} {fraction : Option (List Char)} {n : ℕ} {c : Char}

theorem isTokenChar_of_isDigit (h : c.isDigit = true) : isTokenChar c = true := by
  simp [isTokenChar, Char.isAlphanum, h]

theorem isTokenChar_of_isExponent (h : isExponent tail = true) :
    ∀ c ∈ tail, isTokenChar c = true := by
  cases tail with
  | nil => exact fun c hc => absurd hc List.not_mem_nil
  | cons e cs =>
    simp only [isExponent, Bool.and_eq_true, Bool.or_eq_true, beq_iff_eq] at h
    obtain ⟨⟨he, -⟩, hdigits⟩ := h
    have hletter : isTokenChar e = true := by rcases he with rfl | rfl <;> rfl
    have hrest : ∀ c ∈ cs, isTokenChar c = true := by
      intro c hc
      split at hdigits
      · rcases List.mem_cons.mp hc with rfl | hc
        · rfl
        · exact isTokenChar_of_isDigit (List.all_eq_true.mp hdigits c hc)
      · rcases List.mem_cons.mp hc with rfl | hc
        · rfl
        · exact isTokenChar_of_isDigit (List.all_eq_true.mp hdigits c hc)
      · exact isTokenChar_of_isDigit (List.all_eq_true.mp hdigits c hc)
    exact List.forall_mem_cons.mpr ⟨hletter, hrest⟩

theorem isTokenChar_of_takeWhile (h : ∀ c ∈ text.dropWhile Char.isDigit, isTokenChar c = true) :
    ∀ c ∈ text, isTokenChar c = true := by
  intro c hc
  rw [← List.takeWhile_append_dropWhile (p := Char.isDigit) (l := text), List.mem_append] at hc
  rcases hc with hc | hc
  · exact isTokenChar_of_isDigit (List.mem_takeWhile_imp hc)
  · exact h c hc

theorem isTokenChar_of_isFraction (h : isFraction text = true) :
    ∀ c ∈ text, isTokenChar c = true := by
  unfold isFraction at h
  split at h
  · rw [Bool.and_eq_true] at h
    exact List.forall_mem_cons.mpr
      ⟨rfl, isTokenChar_of_takeWhile (isTokenChar_of_isExponent h.2)⟩
  · exact isTokenChar_of_isExponent h

theorem isTokenChar_of_isNumber (h : isNumber text = true) : ∀ c ∈ text, isTokenChar c = true := by
  unfold isNumber at h
  rw [Bool.and_eq_true] at h
  split at h
  · exact List.forall_mem_cons.mpr ⟨rfl, isTokenChar_of_takeWhile (isTokenChar_of_isFraction h.2)⟩
  · exact isTokenChar_of_takeWhile (isTokenChar_of_isFraction h.2)

theorem spells_number (h : isNumber text = true) : Spells text (.number text) := by
  refine spells_token (isTokenChar_of_isNumber h) ?_
  have hne (word : List Char) (hword : isNumber word = false) : text ≠ word := by
    rintro rfl
    exact Bool.noConfusion (h.symm.trans hword)
  rw [ofToken, if_neg (hne _ (by decide)), if_neg (hne _ (by decide)), if_neg (hne _ (by decide)),
    if_pos h]

/-! ## Digits -/

theorem head?_toDigits (hn : 0 < n) : (Nat.toDigits 10 n).head? ≠ some '0' := by
  induction n using Nat.strongRecOn with
  | ind n ih =>
    rw [Nat.toDigits_eq_if (by decide)]
    split_ifs with hlt
    · have hall : ∀ k < 10, 0 < k → [Nat.digitChar k].head? ≠ some '0' := by decide
      exact hall n hlt hn
    · rw [List.head?_append_of_ne_nil _ Nat.toDigits_ne_nil]
      exact ih _ (Nat.div_lt_self hn (by decide)) (Nat.div_pos (Nat.le_of_not_lt hlt) (by decide))

theorem isInteger_of_head? (hne : whole ≠ []) (hhead : whole.head? ≠ some '0') :
    isInteger whole = true := by
  simp [isInteger, hne, hhead]

theorem isInteger_toDigits (n : ℕ) : isInteger (Nat.toDigits 10 n) = true := by
  rcases Nat.eq_zero_or_pos n with rfl | hn
  · rfl
  · exact isInteger_of_head? Nat.toDigits_ne_nil (head?_toDigits hn)

theorem head?_of_isExponent (h : isExponent tail = true) :
    ∀ c ∈ tail.head?, c = 'e' ∨ c = 'E' := by
  rintro c hc
  cases tail with
  | nil => cases hc
  | cons e cs =>
    cases hc
    simp only [isExponent, Bool.and_eq_true, Bool.or_eq_true, beq_iff_eq] at h
    exact h.1.1

theorem isNumber_of_parts (negative : Bool) (hwhole : ∀ c ∈ whole, c.isDigit = true)
    (hinteger : isInteger whole = true)
    (hfraction : ∀ cs ∈ fraction, cs ≠ [] ∧ ∀ c ∈ cs, c.isDigit = true)
    (htail : isExponent tail = true) :
    isNumber ((if negative then ['-'] else []) ++
      (whole ++ (fraction.elim [] ('.' :: ·) ++ tail))) = true := by
  have hhead := head?_of_isExponent htail
  have hnodigit : tail.head?.all (!·.isDigit) := by
    cases tail with
    | nil => rfl
    | cons c tail => rcases hhead c rfl with rfl | rfl <;> rfl
  have hfrac : isFraction (fraction.elim [] ('.' :: ·) ++ tail) = true := by
    cases fraction with
    | none =>
      cases tail with
      | nil => rfl
      | cons c tail => rcases hhead c rfl with rfl | rfl <;> exact htail
    | some cs =>
      obtain ⟨hne, hdigits⟩ := hfraction cs rfl
      obtain ⟨htake, hdrop⟩ := takeWhile_digits hdigits hnodigit
      simp [isFraction, htake, hdrop, hne, htail]
  have hnodigit' : (fraction.elim [] ('.' :: ·) ++ tail).head?.all (!·.isDigit) := by
    cases fraction with
    | none => exact hnodigit
    | some cs => rfl
  obtain ⟨htake, hdrop⟩ := takeWhile_digits hwhole hnodigit'
  have hunsigned : isNumber (whole ++ (fraction.elim [] ('.' :: ·) ++ tail)) =
      isNumber ('-' :: (whole ++ (fraction.elim [] ('.' :: ·) ++ tail))) := by
    cases whole with
    | nil => cases hinteger
    | cons c whole =>
      have hminus : c ≠ '-' := by
        rintro rfl
        exact absurd (hwhole '-' List.mem_cons_self) (by decide)
      simp [isNumber, hminus]
  have hnumber : isNumber ('-' :: (whole ++ (fraction.elim [] ('.' :: ·) ++ tail))) = true := by
    simp only [isNumber, htake, hdrop, hinteger, hfrac, Bool.and_self]
  cases negative with
  | true => exact hnumber
  | false => exact hunsigned.trans hnumber

theorem isNumber_decimal (x : ℤ) : isNumber (decimal 0 x) = true := by
  have hdigits : ∀ c ∈ Nat.toDigits 10 x.natAbs, c.isDigit = true := fun c hc =>
    Nat.isDigit_of_mem_toDigits (by decide) (by decide) hc
  have hnumber := isNumber_of_parts (x < 0) hdigits (isInteger_toDigits _)
    (show ∀ cs ∈ (none : Option (List Char)), _ from nofun) (show isExponent [] = true from rfl)
  have htext : decimal 0 x = (if decide (x < 0) then ['-'] else []) ++
      (Nat.toDigits 10 x.natAbs ++ ((none : Option (List Char)).elim [] ('.' :: ·) ++ [])) := by
    by_cases hneg : x < 0
    · simp [decimal, zeroPad, hneg]
    · simp [decimal, zeroPad, hneg]
  rw [htext]
  exact hnumber

end Mongolite.Json
