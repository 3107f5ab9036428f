import Mongolite.Bson.Decimal128Reading

/-! # Decimal numbers there and back

Every text of digits with a point and an exponent is read exactly, as long as it
has no more than 34 digits after the zeros in front and its exponent is in range.
So the text of a number is read as the number, bit for bit, exactly when the
number is canonical.
-/

namespace Mongolite

namespace BsonDecimal128

/-! ## The scan -/

namespace DigitScan

/-- What the scan keeps of the digits seen so far, as long as all could be stored. -/
structure Reads (st : DigitScan) (seen : List ℕ) : Prop where
  digits_eq : st.digits = seen.dropWhile (· == 0)
  found_eq : st.foundNonzero = !st.digits.isEmpty
  read_eq : st.ndigitsRead = seen.length
  ndigits_eq : st.ndigits = st.digits.length
  first_eq : st.digits ≠ [] → st.firstNonzero + st.digits.length = seen.length

variable {st : DigitScan} {seen ds : List ℕ} {d : ℕ}

def feed (st : DigitScan) (ds : List ℕ) : DigitScan :=
  ds.foldl (fun st d => st.digit (Nat.digitChar d)) st

theorem digit_skipped (hfound : st.foundNonzero = false) :
    st.digit '0' = { st with
      ndigitsRead := st.ndigitsRead + 1
      radixPosition := if st.sawRadix then st.radixPosition + 1 else st.radixPosition } := by
  unfold digit
  simp [hfound]

theorem digit_stored {c : Char} (hroom : st.digits.length < 34)
    (hfirst : c ≠ '0' ∨ st.foundNonzero = true) :
    st.digit c = { st with
      foundNonzero := true
      ndigitsRead := st.ndigitsRead + 1
      ndigits := st.ndigits + 1
      radixPosition := if st.sawRadix then st.radixPosition + 1 else st.radixPosition
      firstNonzero := if st.foundNonzero then st.firstNonzero else st.ndigitsRead
      digits := st.digits ++ [c.toNat - '0'.toNat] } := by
  have hstored : st.digits.length < 34 ∧ (c ≠ '0' ∨ st.foundNonzero = true) := ⟨hroom, hfirst⟩
  simp only [digit, if_pos hstored, decide_eq_true hstored, Bool.or_true, if_true]
  cases hfound : st.foundNonzero with
  | true => simp
  | false =>
    have hc : c ≠ '0' := hfirst.resolve_right (by simp [hfound])
    simp [hc, hroom]

theorem Reads.digit (h : st.Reads seen) (hd : d < 10)
    (hlength : ((seen ++ [d]).dropWhile (· == 0)).length ≤ 34) :
    (st.digit (Nat.digitChar d)).Reads (seen ++ [d]) := by
  have hvalue : (Nat.digitChar d).toNat - '0'.toNat = d := by
    have hnat := Nat.toNat_digitChar_of_lt_ten hd
    have hzero : '0'.toNat = 48 := rfl
    omega
  have hdrop : (seen ++ [d]).dropWhile (· == 0) =
      if st.digits.isEmpty then [d].dropWhile (· == 0) else st.digits ++ [d] := by
    rw [List.dropWhile_append, h.digits_eq]
  have hfound := h.found_eq
  have hread := h.read_eq
  have hcount := h.ndigits_eq
  have hseen : (seen ++ [d]).length = seen.length + 1 := List.length_append
  rw [hdrop] at hlength
  by_cases hskip : st.digits = [] ∧ d = 0
  · obtain ⟨hnil, rfl⟩ := hskip
    rw [hnil] at hdrop hfound
    have hzero : st.digit (Nat.digitChar 0) = _ := digit_skipped hfound
    rw [hzero]
    exact ⟨hnil.trans hdrop.symm, hfound.trans (by rw [hnil]), by rw [hseen, hread], hcount,
      fun hne => absurd hnil hne⟩
  · have hstored : (seen ++ [d]).dropWhile (· == 0) = st.digits ++ [d] := by
      rw [hdrop]
      cases hcase : st.digits with
      | nil =>
        have hd' : d ≠ 0 := fun hzero => hskip ⟨hcase, hzero⟩
        simp [hd']
      | cons d' ds => rfl
    rw [← hdrop, hstored, List.length_append] at hlength
    have hfirst : Nat.digitChar d ≠ '0' ∨ st.foundNonzero = true := by
      rw [ne_eq, Nat.digitChar_eq_zero, hfound]
      by_cases hnil : st.digits = []
      · exact .inl fun hzero => hskip ⟨hnil, hzero⟩
      · exact .inr (by simpa using hnil)
    rw [digit_stored (by simpa using hlength) hfirst]
    refine ⟨?_, by simp, by rw [hseen, hread], ?_, fun _ => ?_⟩
    · rw [hstored, hvalue]
    · rw [List.length_append, hcount]
      rfl
    · rw [hseen, List.length_append, List.length_singleton]
      by_cases hnil : st.digits = []
      · rw [hnil] at hfound
        rw [hfound, hnil, hread]
        simp
      · have hfound' : st.foundNonzero = true := by rw [hfound]; simpa using hnil
        rw [hfound', if_pos rfl, ← Nat.add_assoc, h.first_eq hnil]

theorem Reads.feed (h : st.Reads seen) (hds : ∀ d ∈ ds, d < 10)
    (hlength : ((seen ++ ds).dropWhile (· == 0)).length ≤ 34) :
    (st.feed ds).Reads (seen ++ ds) := by
  induction ds generalizing st seen with
  | nil => rwa [List.append_nil]
  | cons d ds ih =>
    rw [List.forall_mem_cons] at hds
    rw [List.append_cons] at hlength ⊢
    have hfirst : ((seen ++ [d]).dropWhile (· == 0)).length ≤ 34 := by
      rw [List.dropWhile_append] at hlength
      split_ifs at hlength with hnil
      · rw [List.isEmpty_iff.mp hnil]
        decide
      · rw [List.length_append] at hlength
        omega
    exact ih (h.digit hds.1 hfirst) hds.2 hlength

@[simp] theorem sawRadix_feed (st : DigitScan) (ds : List ℕ) :
    (st.feed ds).sawRadix = st.sawRadix := by
  induction ds generalizing st with
  | nil => rfl
  | cons d ds ih => exact ih _

theorem radixPosition_feed (st : DigitScan) (ds : List ℕ) : (st.feed ds).radixPosition =
    if st.sawRadix then st.radixPosition + ds.length else st.radixPosition := by
  induction ds generalizing st with
  | nil => simp [feed]
  | cons d ds ih =>
    have hstep : (st.digit (Nat.digitChar d)).radixPosition =
        if st.sawRadix then st.radixPosition + 1 else st.radixPosition := rfl
    refine (ih (st.digit (Nat.digitChar d))).trans ?_
    rw [hstep, List.length_cons]
    change (if st.sawRadix then _ else _) = _
    cases st.sawRadix with
    | true => simp only [if_true]; omega
    | false => rfl

theorem readDigits_map (st : DigitScan) (hds : ∀ d ∈ ds, d < 10) (rest : List Char) :
    st.readDigits (ds.map Nat.digitChar ++ rest) = (st.feed ds).readDigits rest := by
  induction ds generalizing st with
  | nil => rfl
  | cons d ds ih =>
    rw [List.forall_mem_cons] at hds
    have hdigit : (Nat.digitChar d).isDigit :=
      isDigit_of_mem_digitChar (List.forall_mem_singleton.mpr hds.1) _ (by simp)
    have hpoint : Nat.digitChar d ≠ '.' := by
      intro h
      rw [h] at hdigit
      exact absurd hdigit (by decide)
    rw [List.map_cons, List.cons_append, readDigits, if_neg hpoint, if_pos hdigit, ih _ hds.2]
    rfl

end DigitScan

/-! ## Texts with a layout -/

variable (layout : DecimalLayout)

def exponentText (exponent : Option ℤ) : List Char :=
  exponent.elim [] fun e => 'E' :: plusDecimal e

def pointedText (fraction : Option (List ℕ)) (rest : List Char) : List Char :=
  fraction.elim rest fun ds => '.' :: (ds.map Nat.digitChar ++ rest)

theorem text_eq (isNegative : Bool) : layout.text isNegative =
    (if isNegative then ['-'] else []) ++ (layout.whole.map Nat.digitChar ++
      pointedText layout.fraction (exponentText layout.exponent)) := by
  rw [DecimalLayout.text, decimalText]
  cases layout.fraction <;> rfl

theorem readDigits_exponentText (st : DigitScan) (exponent : Option ℤ) :
    st.readDigits (exponentText exponent) = some (st, exponentText exponent) := by
  cases exponent <;> rfl

theorem scanInteger_plusDecimal (e : ℤ) : scanInteger (plusDecimal e) = some (e, []) := by
  have hspace : (plusDecimal e).dropWhile isSpace = plusDecimal e := by
    refine List.dropWhile_cons_of_neg ?_
    split_ifs <;> decide
  have hdigits : ∀ c ∈ Nat.toDigits 10 e.natAbs, c.isDigit := fun c hc =>
    Nat.isDigit_of_mem_toDigits (by decide) (by decide) hc
  have hend : ([] : List Char).head?.all (!·.isDigit) := rfl
  obtain ⟨htake, hdrop⟩ := takeWhile_digits hdigits hend
  rw [List.append_nil] at htake hdrop
  simp only [scanInteger, hspace, takeSign_plusDecimal, htake, hdrop, if_neg Nat.toDigits_ne_nil,
    Nat.ofDigitChars_ten_toDigits, sign_natAbs]

theorem readExponent_exponentText {exponent : Option ℤ} (hlow : -2 ^ 31 ≤ exponent.getD 0)
    (hhigh : exponent.getD 0 < 2 ^ 31) :
    readExponent (exponentText exponent) = some (exponent.getD 0, []) := by
  cases exponent with
  | none => rfl
  | some e =>
    rw [Option.getD_some] at hlow hhigh
    simp only [exponentText, Option.elim_some, readExponent, or_true, if_true,
      scanInteger_plusDecimal, Option.bind_some, if_pos (And.intro hlow hhigh), Option.getD_some]

theorem readDigits_layout (hlength : (layout.digits.dropWhile (· == 0)).length ≤ 34) :
    ∃ st : DigitScan, DigitScan.readDigits ⟨false, false, 0, 0, 0, 0, []⟩
        (layout.whole.map Nat.digitChar ++
          pointedText layout.fraction (exponentText layout.exponent)) =
        some (st, exponentText layout.exponent) ∧ st.Reads layout.digits ∧
      st.sawRadix = layout.fraction.isSome ∧
      st.radixPosition = (layout.fraction.getD []).length := by
  have hstart : DigitScan.Reads ⟨false, false, 0, 0, 0, 0, []⟩ [] :=
    ⟨rfl, rfl, rfl, rfl, fun h => absurd rfl h⟩
  have hlt := List.forall_mem_append.mp layout.digits_lt
  have hwhole : ((layout.whole).dropWhile (· == 0)).length ≤ 34 := by
    rw [DecimalLayout.digits, List.dropWhile_append] at hlength
    split_ifs at hlength with hnil
    · rw [List.isEmpty_iff.mp hnil]
      decide
    · rw [List.length_append] at hlength
      omega
  have hreads := hstart.feed hlt.1 hwhole
  rw [List.nil_append] at hreads
  rw [DigitScan.readDigits_map _ hlt.1]
  have hradix := DigitScan.radixPosition_feed ⟨false, false, 0, 0, 0, 0, []⟩ layout.whole
  have hsaw := DigitScan.sawRadix_feed ⟨false, false, 0, 0, 0, 0, []⟩ layout.whole
  generalize DigitScan.feed ⟨false, false, 0, 0, 0, 0, []⟩ layout.whole = st at hreads hradix hsaw ⊢
  unfold DecimalLayout.digits at hlength ⊢
  cases hfraction : layout.fraction with
  | none =>
    refine ⟨st, readDigits_exponentText st _, ?_, hsaw, hradix⟩
    rwa [Option.getD_none, List.append_nil]
  | some ds =>
    rw [hfraction] at hlt hlength
    have hreads' : DigitScan.Reads { st with sawRadix := true } layout.whole :=
      ⟨hreads.digits_eq, hreads.found_eq, hreads.read_eq, hreads.ndigits_eq, hreads.first_eq⟩
    refine ⟨DigitScan.feed { st with sawRadix := true } ds, ?_, hreads'.feed hlt.2 hlength, ?_, ?_⟩
    · have hds : ∀ d ∈ ds, d < 10 := hlt.2
      rw [pointedText, Option.elim_some, DigitScan.readDigits, if_pos rfl, hsaw]
      simp only [Bool.false_eq_true, if_false]
      rw [DigitScan.readDigits_map _ hds, readDigits_exponentText]
    · rw [DigitScan.sawRadix_feed]
      rfl
    · rw [DigitScan.radixPosition_feed, hradix]
      exact Nat.zero_add _

/-! ## After the scan -/

theorem trimZeros_le (charAt : ℕ → Char) (n : ℕ) : trimZeros charAt n ≤ n := by
  induction n with
  | zero => exact le_rfl
  | succ n ih =>
    rw [trimZeros]
    split_ifs <;> omega

theorem trimZeros_pos {charAt : ℕ → Char} {k n : ℕ} (hk : k < n) (h : charAt k ≠ '0') :
    trimZeros charAt n ≠ 0 := by
  induction n with
  | zero => exact absurd hk (Nat.not_lt_zero k)
  | succ n ih =>
    rw [trimZeros]
    split_ifs with hzero
    · apply ih
      have hne : k ≠ n := by
        rintro rfl
        exact h hzero
      omega
    · exact Nat.succ_ne_zero n

theorem shiftUp_of_le {significantDigits lastDigit : ℕ} {e : ℤ} (h : e ≤ 6111) :
    shiftUp significantDigits e lastDigit = some (e, lastDigit) := by
  rw [shiftUp, if_neg (not_lt.mpr h)]

theorem shiftDown_of_le {significantDigits lastDigit ndigits : ℕ} {digits : List ℕ}
    {charAt : ℕ → Char} {e : ℤ} (h : -6176 ≤ e) (hdigits : ndigits ≤ digits.length) :
    shiftDown significantDigits digits charAt e lastDigit ndigits = some (e, lastDigit) := by
  rw [shiftDown, if_neg (by omega)]

/-- The digits that are looked at where the trailing zeros are counted: one of them is no zero, or
the point is among them. -/
theorem exists_char_ne_zero {isNegative : Bool} {d : ℕ} {ds : List ℕ}
    (hdigits : layout.digits.dropWhile (· == 0) = d :: ds) {first : ℕ}
    (hfirst : first + (d :: ds).length = layout.digits.length) :
    ∃ k < (d :: ds).length, (layout.text isNegative).getD
      (first + k + isNegative.toNat + layout.fraction.isSome.toNat) '\x00' ≠ '0' := by
  have hd : Nat.digitChar d ≠ '0' := by
    rw [ne_eq, Nat.digitChar_eq_zero]
    exact ne_zero_of_dropWhile hdigits
  have hget : layout.digits[first]? = some d := by
    have hsplit := List.takeWhile_append_dropWhile (p := (· == 0)) (l := layout.digits)
    rw [hdigits] at hsplit
    have hcount := congrArg List.length hsplit
    rw [List.length_append] at hcount
    rw [← hsplit, List.getElem?_append_right (by omega)]
    have hzero : first - (layout.digits.takeWhile (· == 0)).length = 0 := by omega
    rw [hzero]
    rfl
  have hbody : ∀ i, (layout.text isNegative).getD (i + isNegative.toNat) '\x00' =
      (layout.whole.map Nat.digitChar ++
        pointedText layout.fraction (exponentText layout.exponent))[i]?.getD '\x00' := by
    intro i
    rw [text_eq, List.getD_eq_getElem?_getD]
    cases isNegative <;> rfl
  have hindex : ∀ k r, first + k + isNegative.toNat + r = first + k + r + isNegative.toNat :=
    fun k r => Nat.add_right_comm _ _ _
  simp only [hindex, hbody]
  unfold DecimalLayout.digits at hget hfirst
  cases hfraction : layout.fraction with
  | none =>
    rw [hfraction, Option.getD_none, List.append_nil] at hget
    refine ⟨0, Nat.succ_pos _, ?_⟩
    have hlt : first < layout.whole.length := (List.getElem?_eq_some_iff.mp hget).1
    rw [Option.isSome_none, Bool.toNat_false, Nat.add_zero,
      List.getElem?_append_left (by rwa [List.length_map]), List.getElem?_map, hget]
    exact hd
  | some fs =>
    rw [hfraction, Option.getD_some] at hget hfirst
    rw [List.length_append] at hfirst
    rw [Option.isSome_some, Bool.toNat_true, pointedText, Option.elim_some]
    rcases Nat.lt_or_ge first layout.whole.length with hbefore | hafter
    · refine ⟨layout.whole.length - 1 - first, by omega, ?_⟩
      have hpoint : first + (layout.whole.length - 1 - first) + 1 =
          (layout.whole.map Nat.digitChar).length := by
        rw [List.length_map]
        omega
      rw [hpoint, List.getElem?_append_right le_rfl, Nat.sub_self]
      change '.' ≠ '0'
      decide
    · refine ⟨0, Nat.succ_pos _, ?_⟩
      rw [List.getElem?_append_right hafter] at hget
      have hlt : first - layout.whole.length < fs.length := (List.getElem?_eq_some_iff.mp hget).1
      have hshift : first + 0 + 1 - (layout.whole.map Nat.digitChar).length =
          first - layout.whole.length + 1 := by
        rw [List.length_map]
        omega
      rw [List.getElem?_append_right (by rw [List.length_map]; omega), hshift,
        List.getElem?_cons_succ, List.getElem?_append_left (by rwa [List.length_map]),
        List.getElem?_map, hget]
      exact hd

theorem parse_digits {c : Char} (hc : c.isDigit) (isNegative : Bool) (cs : List Char) :
    parse ((if isNegative then ['-'] else []) ++ c :: cs) =
      (DigitScan.readDigits ⟨false, false, 0, 0, 0, 0, []⟩ (c :: cs)).bind fun scanned =>
        if scanned.1.sawRadix ∧ scanned.1.ndigitsRead = 0 then none
        else (readExponent scanned.2).bind fun e =>
          if e.2 ≠ [] then none else
            finish ((if isNegative then ['-'] else []) ++ c :: cs) isNegative isNegative scanned.1
              e.1 := by
  have hplus : c ≠ '+' := by
    rintro rfl
    exact absurd hc (by decide)
  have hminus : c ≠ '-' := by
    rintro rfl
    exact absurd hc (by decide)
  cases isNegative <;> simp [parse, hc, hplus, hminus]

theorem finish_eq {text : List Char} {isNegative : Bool} {st : DigitScan} {seen : List ℕ} {e : ℤ}
    (hreads : st.Reads seen) (hlt : ∀ d ∈ seen, d < 10)
    (hlength : (seen.dropWhile (· == 0)).length ≤ 34)
    (hlow : -6176 ≤ e - st.radixPosition) (hhigh : e - st.radixPosition ≤ 6111)
    (hchar : st.digits ≠ [] → ∃ k < st.digits.length, text.getD
      (st.firstNonzero + k + isNegative.toNat + st.sawRadix.toNat) '\x00' ≠ '0') :
    ∃ dec, finish text isNegative isNegative st e = some dec ∧ dec.coefficient < 10 ^ 34 ∧
      dec.number = ⟨isNegative, ofWords 10 seen, e - st.radixPosition⟩ := by
  have hrange : ¬ (e ≤ st.radixPosition ∧ e + 2 ^ 14 < st.radixPosition) := by omega
  rw [← hreads.digits_eq] at hlength
  have hwords : ofWords 10 seen = ofWords 10 st.digits := by
    rw [hreads.digits_eq, ofWords_dropWhile]
  have hdigits : ∀ d ∈ st.digits, d < 10 := by
    intro d hd
    rw [hreads.digits_eq] at hd
    exact hlt d ((List.dropWhile_sublist _).subset hd)
  by_cases hnil : st.digits = []
  · have hone : ∀ d ∈ [0], d < 10 := by decide
    obtain ⟨hsmall, hnumber⟩ := encode_significandOf hone (.inl rfl : 0 = 0 ∨ 0 < 34) hlow hhigh
      isNegative
    refine ⟨_, ?_, hsmall, ?_⟩
    · have hcount : 1 ≤ [0].length := le_rfl
      simp only [finish, if_pos hnil, if_neg hrange, shiftUp_of_le hhigh, Option.bind_some,
        List.length_singleton, Nat.sub_self, shiftDown_of_le hlow hcount, Nat.not_lt_zero,
        false_and, if_false]
    · rw [hnumber, if_pos rfl, hwords, hnil, ofWords_nil]
  · obtain ⟨k, hk, hne⟩ := hchar hnil
    have hcount := hreads.ndigits_eq
    have hpos := List.length_pos_of_ne_nil hnil
    generalize htrim : trimZeros (fun k => text.getD
      (st.firstNonzero + k + isNegative.toNat + st.sawRadix.toNat) '\x00') st.ndigits =
        significantDigits
    have hsignificant : significantDigits ≠ 0 := htrim ▸ trimZeros_pos (hcount ▸ hk) hne
    have hle : significantDigits ≤ st.digits.length := by
      rw [← htrim, ← hcount]
      exact trimZeros_le _ _
    have hlast : significantDigits = 0 ∨ st.digits.length - 1 < 34 := .inr (by omega)
    have hround : ¬ (st.digits.length - 1 + 1 < significantDigits) := by omega
    obtain ⟨hsmall, hnumber⟩ := encode_significandOf hdigits hlast hlow hhigh isNegative
    refine ⟨_, ?_, hsmall, ?_⟩
    · simp only [finish, if_neg hnil, if_neg hrange, htrim, shiftUp_of_le hhigh, Option.bind_some,
        shiftDown_of_le hlow hcount.le, hround, false_and, if_false]
    · rw [hnumber, if_neg hsignificant, hwords, Nat.sub_add_cancel hpos,
        List.take_append_of_le_length le_rfl, List.take_length]

/-- A text is read exactly if it has no more than 34 digits after the zeros in front and its
exponent is in range. -/
theorem parse_text (isNegative : Bool) (hlength : (layout.digits.dropWhile (· == 0)).length ≤ 34)
    (hlow : -6176 ≤ layout.scale) (hhigh : layout.scale ≤ 6111)
    (hexponent : layout.exponent.getD 0 < 2 ^ 31) :
    ∃ dec, parse (layout.text isNegative) = some dec ∧ dec.coefficient < 10 ^ 34 ∧
      dec.number = ⟨isNegative, ofWords 10 layout.digits, layout.scale⟩ := by
  obtain ⟨st, hscan, hreads, hsaw, hradix⟩ := readDigits_layout layout hlength
  have hscale : layout.scale = layout.exponent.getD 0 - st.radixPosition := by
    rw [hradix]
    rfl
  rw [hscale] at hlow hhigh ⊢
  have hchar : st.digits ≠ [] → ∃ k < st.digits.length, (layout.text isNegative).getD
      (st.firstNonzero + k + isNegative.toNat + st.sawRadix.toNat) '\x00' ≠ '0' := by
    intro hne
    obtain ⟨d, ds, hds⟩ := List.exists_cons_of_ne_nil hne
    have hfirst := hreads.first_eq hne
    rw [hds] at hfirst ⊢
    rw [hsaw]
    exact exists_char_ne_zero layout (hreads.digits_eq ▸ hds) hfirst
  obtain ⟨dec, hfinish, hdec⟩ := finish_eq hreads layout.digits_lt hlength hlow hhigh hchar
  refine ⟨dec, ?_, hdec⟩
  obtain ⟨w, ws, hwhole⟩ := List.exists_cons_of_ne_nil layout.whole_ne_nil
  have hw : (Nat.digitChar w).isDigit := by
    have hlt : w < 10 := layout.digits_lt w (by simp [hwhole])
    exact isDigit_of_mem_digitChar (List.forall_mem_singleton.mpr hlt) _ (by simp)
  have hread : ¬ (st.sawRadix = true ∧ st.ndigitsRead = 0) := by
    rw [hreads.read_eq, DecimalLayout.digits, hwhole]
    simp
  have hlow' : -2 ^ 31 ≤ layout.exponent.getD 0 := by omega
  rw [text_eq] at hfinish ⊢
  rw [hwhole, List.map_cons, List.cons_append] at hscan hfinish ⊢
  rw [parse_digits hw, hscan, Option.bind_some, if_neg hread,
    readExponent_exponentText hlow' hexponent, Option.bind_some, if_neg (not_not_intro rfl)]
  exact hfinish

/-! ## There and back -/

variable {dec : BsonDecimal128}

theorem length_fraction_le (isNegative : Bool) :
    (layout.fraction.getD []).length ≤ (layout.text isNegative).length := by
  rw [text_eq, pointedText]
  cases layout.fraction with
  | none => exact Nat.zero_le _
  | some ds =>
    simp only [Option.getD_some, Option.elim_some, List.length_append, List.length_cons,
      List.length_map]
    omega

theorem parse_toText (h : dec.coefficient < 10 ^ 34) : parse dec.toText = some dec := by
  have hfinite := isFinite_of_coefficient_lt h
  have hlength := dec.length_digits_le (by decide) (.inl h)
  have htextLength := dec.length_toText_lt
  obtain ⟨hlow, hhigh⟩ := exponent_bounds hfinite
  obtain ⟨layout, zeros, k, htext, hshows⟩ := toText_eq hfinite
  have hscale := hshows.scale_eq hlength
  have hdigits := hshows.digits_eq
  rw [List.take_of_length_le (hshows.all_shown hlength)] at hdigits
  have hshort : (layout.digits.dropWhile (· == 0)).length ≤ 34 := by
    have hzeros : ∀ d ∈ List.replicate zeros 0, (d == 0) = true := by
      intro d hd
      rw [List.eq_of_mem_replicate hd]
      rfl
    rw [hdigits, List.dropWhile_append_of_pos hzeros]
    exact (List.dropWhile_sublist _).length_le.trans hlength
  have hexponent : layout.exponent.getD 0 < 2 ^ 31 := by
    have hfraction := length_fraction_le layout dec.isNegative
    rw [← htext] at hfraction
    unfold DecimalLayout.scale at hscale
    omega
  obtain ⟨dec', hparse, hsmall, hnumber⟩ :=
    parse_text layout dec.isNegative hshort (hscale ▸ hlow) (hscale ▸ hhigh) hexponent
  rw [htext, hparse]
  have hwords : ofWords 10 layout.digits = dec.number.coefficient := by
    rw [number_coefficient (.inl h), hdigits, ofWords_append, ofWords_replicate_zero, Nat.mul_zero,
      Nat.zero_add]
  rw [hwords, hscale] at hnumber
  exact congrArg some (eq_of_number_eq hsmall h hnumber)

/-- The text of a number is read as the number, bit for bit, exactly if it is canonical. -/
theorem fromText_toText (dec : BsonDecimal128) :
    fromText dec.toText = (true, dec) ↔ dec.IsCanonical := by
  constructor
  · intro h
    have hcanonical := (fromText_canonical dec.toText).1
    rwa [h] at hcanonical
  · intro h
    cases h with
    | finite hcoefficient => rw [fromText, parse_toText hcoefficient]
    | infinity isNegative => cases isNegative <;> decide
    | nan => decide

end BsonDecimal128

end Mongolite
