import Mathlib.Algebra.Order.Ring.Int
import Mongolite.Library.CText
import Mongolite.Library.Decimal
import Mongolite.Library.Words

/-! # Decimal numbers with a point and an exponent

A text of digits that may have a sign, a point and an exponent says which
digits there are and how far the point is from their end, so it stands for a
coefficient and an exponent, not only for their product.
-/

namespace Mongolite

/-- A coefficient with its sign, to be scaled by a power of ten. -/
structure DecimalNumber where
  negative : Bool
  coefficient : ℕ
  exponent : ℤ
  deriving DecidableEq, Repr

/-- The format `%+d`. -/
def plusDecimal (x : ℤ) : List Char :=
  (if x < 0 then '-' else '+') :: Nat.toDigits 10 x.natAbs

def signedValue (cs : List Char) : Option ℤ :=
  (digitsValue (takeSign cs).2).map fun n : ℕ => if (takeSign cs).1 then -(n : ℤ) else (n : ℤ)

/-- What comes after the digits: nothing or an exponent. -/
def exponentValue : List Char → Option ℤ
  | [] => some 0
  | 'E' :: cs | 'e' :: cs => signedValue cs
  | _ => none

def takeFraction : List Char → List Char × List Char
  | '.' :: cs => (cs.takeWhile Char.isDigit, cs.dropWhile Char.isDigit)
  | cs => ([], cs)

def readDecimal (text : List Char) : Option DecimalNumber :=
  let signed := takeSign text
  let whole := signed.2.takeWhile Char.isDigit
  let fraction := takeFraction (signed.2.dropWhile Char.isDigit)
  if whole ++ fraction.1 = [] then none
  else (exponentValue fraction.2).map fun e =>
    ⟨signed.1, Nat.ofDigitChars 10 (whole ++ fraction.1) 0, e - fraction.1.length⟩

/-- A text with these digits before and after the point and with this exponent. -/
def decimalText (negative : Bool) (whole : List Char) (fraction : Option (List Char))
    (exponent : Option ℤ) : List Char :=
  (if negative then ['-'] else []) ++ (whole ++ (fraction.elim [] ('.' :: ·) ++
    exponent.elim [] fun e => 'E' :: plusDecimal e))

variable {negative : Bool} {whole rest : List Char} {fraction : Option (List Char)}
  {exponent : Option ℤ}

theorem length_plusDecimal_le {x : ℤ} {k : ℕ} (hk : 0 < k) (h : x.natAbs < 10 ^ k) :
    (plusDecimal x).length ≤ k + 1 :=
  Nat.succ_le_succ ((Nat.length_toDigits_le_iff (by decide) hk).mpr h)

theorem takeSign_plusDecimal (x : ℤ) :
    takeSign (plusDecimal x) = (decide (x < 0), Nat.toDigits 10 x.natAbs) := by
  rcases lt_or_ge x 0 with hneg | hpos
  · rw [plusDecimal, if_pos hneg, decide_eq_true hneg]
    rfl
  · rw [plusDecimal, if_neg (not_lt.mpr hpos), decide_eq_false (not_lt.mpr hpos)]
    rfl

theorem sign_natAbs (x : ℤ) : (if decide (x < 0) then -(x.natAbs : ℤ) else x.natAbs) = x := by
  rcases lt_or_ge x 0 with hneg | hpos
  · rw [if_pos (decide_eq_true hneg)]
    omega
  · rw [if_neg (by simpa using hpos)]
    omega

theorem signedValue_plusDecimal (x : ℤ) : signedValue (plusDecimal x) = some x := by
  have hdigits : digitsValue (Nat.toDigits 10 x.natAbs) = some x.natAbs := by
    have hzero := digitsValue_zeroPad 0 x.natAbs
    rwa [zeroPad, Nat.zero_sub, List.replicate_zero, List.nil_append] at hzero
  simp only [signedValue, takeSign_plusDecimal, hdigits, Option.map_some, sign_natAbs]

theorem takeWhile_digits (hwhole : ∀ c ∈ whole, c.isDigit) (hrest : rest.head?.all (!·.isDigit)) :
    (whole ++ rest).takeWhile Char.isDigit = whole ∧
      (whole ++ rest).dropWhile Char.isDigit = rest := by
  have hhead : rest.takeWhile Char.isDigit = [] ∧ rest.dropWhile Char.isDigit = rest := by
    cases rest with
    | nil => exact ⟨rfl, rfl⟩
    | cons c rest =>
      have hc : ¬ c.isDigit = true := by simpa using hrest
      exact ⟨List.takeWhile_cons_of_neg hc, List.dropWhile_cons_of_neg hc⟩
  rw [List.takeWhile_append_of_pos hwhole, List.dropWhile_append_of_pos hwhole, hhead.1, hhead.2,
    List.append_nil]
  exact ⟨rfl, rfl⟩

theorem takeSign_digits (hne : whole ≠ []) (hwhole : ∀ c ∈ whole, c.isDigit)
    (negative : Bool) (rest : List Char) :
    takeSign ((if negative then ['-'] else []) ++ (whole ++ rest)) = (negative, whole ++ rest) := by
  cases negative with
  | true => rfl
  | false =>
    cases whole with
    | nil => exact absurd rfl hne
    | cons c whole =>
      have hc := hwhole c List.mem_cons_self
      have hminus : c ≠ '-' := by
        rintro rfl
        exact absurd hc (by decide)
      have hplus : c ≠ '+' := by
        rintro rfl
        exact absurd hc (by decide)
      simp [takeSign, hminus, hplus]

theorem head?_of_exponentValue {tail : List Char} {e : ℤ} (h : exponentValue tail = some e) :
    ∀ c ∈ tail.head?, c = 'E' ∨ c = 'e' := by
  rintro c hc
  cases tail with
  | nil => cases hc
  | cons c' tail =>
    cases hc
    by_contra hne
    rw [not_or] at hne
    simp [exponentValue, hne.1, hne.2] at h

theorem readDecimal_of_parts {tail : List Char} {e : ℤ} (hne : whole ≠ [])
    (hwhole : ∀ c ∈ whole, c.isDigit) (hfraction : ∀ cs ∈ fraction, ∀ c ∈ cs, c.isDigit)
    (htail : exponentValue tail = some e) :
    readDecimal ((if negative then ['-'] else []) ++
      (whole ++ (fraction.elim [] ('.' :: ·) ++ tail))) =
        some ⟨negative, Nat.ofDigitChars 10 (whole ++ fraction.getD []) 0,
          e - (fraction.getD []).length⟩ := by
  have hhead := head?_of_exponentValue htail
  have hnodigit : tail.head?.all (!·.isDigit) := by
    cases tail with
    | nil => rfl
    | cons c tail => rcases hhead c rfl with rfl | rfl <;> rfl
  have hpoint : takeFraction (fraction.elim [] ('.' :: ·) ++ tail) =
      (fraction.getD [], tail) := by
    cases fraction with
    | none =>
      cases tail with
      | nil => rfl
      | cons c tail => rcases hhead c rfl with rfl | rfl <;> rfl
    | some cs =>
      obtain ⟨htake, hdrop⟩ := takeWhile_digits (hfraction cs rfl) hnodigit
      exact Prod.ext htake hdrop
  have hnodigit' : (fraction.elim [] ('.' :: ·) ++ tail).head?.all (!·.isDigit) := by
    cases fraction with
    | none => exact hnodigit
    | some cs => rfl
  obtain ⟨htake, hdrop⟩ := takeWhile_digits hwhole hnodigit'
  rw [readDecimal, takeSign_digits hne hwhole]
  simp only [htake, hdrop, hpoint, htail, Option.map_some]
  rw [if_neg (fun h => hne (List.append_eq_nil_iff.mp h).1)]

/-- The number is read from the text as it was written. -/
theorem readDecimal_decimalText (hne : whole ≠ []) (hwhole : ∀ c ∈ whole, c.isDigit)
    (hfraction : ∀ cs ∈ fraction, ∀ c ∈ cs, c.isDigit) :
    readDecimal (decimalText negative whole fraction exponent) =
      some ⟨negative, Nat.ofDigitChars 10 (whole ++ fraction.getD []) 0,
        exponent.getD 0 - (fraction.getD []).length⟩ := by
  refine readDecimal_of_parts hne hwhole hfraction ?_
  cases exponent with
  | none => rfl
  | some e => exact signedValue_plusDecimal e

/-! ## Digits -/

theorem ofDigitChars_digitChar {ds : List ℕ} (h : ∀ d ∈ ds, d < 10) :
    Nat.ofDigitChars 10 (ds.map Nat.digitChar) 0 = ofWords 10 ds := by
  induction ds using List.reverseRecOn with
  | nil => exact Nat.ofDigitChars_nil
  | append_singleton ds d ih =>
    rw [List.forall_mem_append, List.forall_mem_singleton] at h
    rw [List.map_append, Nat.ofDigitChars_append, ih h.1, List.map_singleton,
      Nat.ofDigitChars_cons_digitChar_of_lt_ten h.2, Nat.ofDigitChars_nil, ofWords_append,
      ofWords_singleton, List.length_singleton, Nat.pow_one]

theorem isDigit_of_mem_digitChar {ds : List ℕ} (h : ∀ d ∈ ds, d < 10) :
    ∀ c ∈ ds.map Nat.digitChar, c.isDigit := by
  intro c hc
  obtain ⟨d, hd, rfl⟩ := List.mem_map.mp hc
  have hall : ∀ n < 10, (Nat.digitChar n).isDigit := by decide
  exact hall d (h d hd)

/-! ## Layouts -/

/-- Digits before and after a point and an exponent; there are digits before the point. -/
structure DecimalLayout where
  whole : List ℕ
  fraction : Option (List ℕ)
  exponent : Option ℤ
  whole_ne_nil : whole ≠ []
  digits_lt : ∀ d ∈ whole ++ fraction.getD [], d < 10

namespace DecimalLayout

variable (layout : DecimalLayout)

def digits : List ℕ := layout.whole ++ layout.fraction.getD []

/-- The power of ten that the last digit counts. -/
def scale : ℤ := layout.exponent.getD 0 - (layout.fraction.getD []).length

def text (negative : Bool) : List Char :=
  decimalText negative (layout.whole.map Nat.digitChar)
    (layout.fraction.map fun ds => ds.map Nat.digitChar) layout.exponent

theorem readDecimal_text (negative : Bool) :
    readDecimal (layout.text negative) =
      some ⟨negative, ofWords 10 layout.digits, layout.scale⟩ := by
  have hlt := List.forall_mem_append.mp layout.digits_lt
  have hne : layout.whole.map Nat.digitChar ≠ [] := by simpa using layout.whole_ne_nil
  have hfraction : ∀ cs ∈ layout.fraction.map fun ds => ds.map Nat.digitChar,
      ∀ c ∈ cs, c.isDigit := by
    intro cs hcs
    obtain ⟨ds, hds, rfl⟩ := Option.mem_map.mp hcs
    rw [hds] at hlt
    exact isDigit_of_mem_digitChar hlt.2
  have hget : (layout.fraction.map fun ds => ds.map Nat.digitChar).getD [] =
      (layout.fraction.getD []).map Nat.digitChar := by
    cases layout.fraction <;> rfl
  rw [text, readDecimal_decimalText hne (isDigit_of_mem_digitChar hlt.1) hfraction, hget,
    ← List.map_append, ofDigitChars_digitChar layout.digits_lt, List.length_map]
  rfl

end DecimalLayout

end Mongolite
