import Mongolite.Bson.RelaxedJson
import Mongolite.Library.Utf8

/-! # Rendering any bytes

Whatever bytes a document consists of, what is appended for it is text without
control characters, and it is no longer than 32 times the document. So no
document of less than 128 MiB is cut off.
-/

namespace Mongolite

open Json Appended

variable {bs bs' s : List UInt8} {cs : List Char} {m n : ℕ} {it it' : BsonIter}
  {nested : Bool → Bson → Rendered} {hasKeys notFirstItem : Bool}

/-- Text without control characters, in at most this many bytes. -/
structure Clean (bs : List UInt8) (n : ℕ) : Prop where
  chars : ∃ cs, bs = utf8Bytes cs ∧ ∀ c ∈ cs, 32 ≤ c.toNat
  length_le : bs.length ≤ n

theorem Clean.mono (h : Clean bs m) (hmn : m ≤ n) : Clean bs n :=
  ⟨h.chars, h.length_le.trans hmn⟩

theorem clean_nil : Clean [] n :=
  ⟨⟨[], rfl, fun _ hc => absurd hc List.not_mem_nil⟩, Nat.zero_le n⟩

theorem Clean.append (h : Clean bs m) (h' : Clean bs' n) : Clean (bs ++ bs') (m + n) := by
  obtain ⟨cs, rfl, hcs⟩ := h.chars
  obtain ⟨cs', rfl, hcs'⟩ := h'.chars
  refine ⟨⟨cs ++ cs', (utf8Bytes_append cs cs').symm, ?_⟩, ?_⟩
  · rw [List.forall_mem_append]
    exact ⟨hcs, hcs'⟩
  · rw [List.length_append]
    exact Nat.add_le_add h.length_le h'.length_le

theorem length_utf8Bytes_le (cs : List Char) : (utf8Bytes cs).length ≤ 4 * cs.length := by
  induction cs with
  | nil => exact Nat.zero_le _
  | cons c cs ih =>
    have hsize := c.utf8Size_le_four
    rw [utf8Bytes_cons, List.length_append, String.length_utf8EncodeChar, List.length_cons]
    omega

theorem clean_plain (h : isPlain cs = true) (hlength : cs.length ≤ n) :
    Clean (chars cs).text (4 * n) := by
  refine ⟨⟨cs, rfl, fun c hc => ?_⟩, (length_utf8Bytes_le cs).trans (by omega)⟩
  have hplain := List.all_eq_true.mp h c hc
  rw [isPlainChar, decide_eq_true_eq] at hplain
  exact hplain.2.2

theorem clean_literal (t : String) (h : t.toList.all (fun c => 32 ≤ c.toNat) = true)
    (hlength : (utf8Bytes t.toList).length ≤ n) : Clean (literal t).text n :=
  ⟨⟨t.toList, rfl, fun c hc => of_decide_eq_true (List.all_eq_true.mp h c hc)⟩, hlength⟩

theorem Clean.andThen {a b : Appended} (ha : Clean a.text m) (hb : Clean b.text n) :
    Clean (a.andThen b).text (m + n) := by
  unfold Appended.andThen
  split_ifs
  · exact ha.append hb
  · exact ha.mono (Nat.le_add_right m n)

/-! ## Escaped texts -/

theorem clean_escapeChar (c : Char) : Clean (utf8Bytes (escapeChar c)) (6 * c.utf8Size) := by
  have hsize := c.utf8Size_pos
  have hhex (k : ℕ) (hk : k < 16) : 32 ≤ (hexChar k).toNat ∧ (hexChar k).toNat < 128 := by
    have hall : ∀ k < 16, 32 ≤ (hexChar k).toNat ∧ (hexChar k).toNat < 128 := by decide
    exact hall k hk
  by_cases hc : c.toNat < 128
  · have hall : ∀ k < 128, (escapeChar (Char.ofNat k)).all (fun c => 32 ≤ c.toNat) = true ∧
        (utf8Bytes (escapeChar (Char.ofNat k))).length ≤ 6 := by decide +kernel
    obtain ⟨hvisible, hlength⟩ := hall _ hc
    rw [Char.ofNat_toNat] at hvisible hlength
    exact ⟨⟨_, rfl, fun c hc => of_decide_eq_true (List.all_eq_true.mp hvisible c hc)⟩, by omega⟩
  · rw [escapeChar_of_le (Nat.le_of_not_lt hc)]
    refine ⟨⟨[c], rfl, ?_⟩, ?_⟩
    · rw [List.forall_mem_singleton]
      omega
    · rw [utf8Bytes_cons, utf8Bytes_nil, List.append_nil, String.length_utf8EncodeChar]
      omega

theorem clean_jsonAppendEscaped {allowNull allowNul : Bool} (h : Utf8Spells allowNull s cs) :
    Clean (jsonAppendEscaped allowNul s).text (6 * s.length) := by
  induction h with
  | nil => exact clean_nil
  | @char s cs c _ _ ih =>
    by_cases hnul : allowNul = true ∨ c ≠ '\x00'
    · rw [jsonAppendEscaped_char hnul, List.length_append, String.length_utf8EncodeChar,
        Nat.mul_add]
      exact (clean_escapeChar c).append ih
    · rw [not_or, not_not] at hnul
      obtain ⟨hallow, rfl⟩ := hnul
      have hzero :
          jsonAppendEscaped allowNul (String.utf8EncodeChar '\x00' ++ s) = ⟨[], false⟩ := by
        have hcons : jsonAppendEscaped allowNul (0 :: s) = _ :=
          jsonAppendEscaped_cons (by decide) s
        rwa [if_pos ⟨rfl, by simpa using hallow⟩] at hcons
      rw [hzero]
      exact clean_nil
  | @null s cs _ _ ih =>
    rw [jsonAppendEscaped_null]
    split_ifs
    · refine ((clean_escapeChar '\x00').append ih).mono ?_
      have hsize : ('\x00').utf8Size = 1 := by decide
      simp only [hsize, List.length_cons]
      omega
    · exact clean_nil

/-! ## Values -/

theorem length_decimal_le {width k : ℕ} {x : ℤ} (hk : 0 < k) (hwidth : width ≤ k)
    (h : x.natAbs < 10 ^ k) : (decimal width x).length ≤ k + 1 := by
  have hdigits := (Nat.length_toDigits_le_iff (by decide) hk).mpr h
  unfold decimal zeroPad
  split_ifs
  · simp only [List.length_cons, List.length_append, List.length_replicate]
    omega
  · simp only [List.length_append, List.length_replicate]
    omega

theorem clean_decimal {k : ℕ} {x : ℤ} (hk : 0 < k) (h : x.natAbs < 10 ^ k) :
    Clean (chars (decimal 0 x)).text (4 * (k + 1)) :=
  clean_plain (isPlain_decimal 0 x) (length_decimal_le hk (Nat.zero_le k) h)

theorem isPlainChar_of_isTokenChar {c : Char} (h : isTokenChar c = true) :
    isPlainChar c = true := by
  have hne (k : Char) (hk : isTokenChar k = false) : c ≠ k := by
    rintro rfl
    exact Bool.noConfusion (h.symm.trans hk)
  have hvisible : 32 ≤ c.toNat := by
    by_contra hcontrol
    have hall : ∀ k < 32, isTokenChar (Char.ofNat k) = false := by decide
    have hfalse := hall c.toNat (Nat.lt_of_not_le hcontrol)
    rw [Char.ofNat_toNat] at hfalse
    exact Bool.noConfusion (h.symm.trans hfalse)
  exact decide_eq_true ⟨hne '"' (by decide), hne '\\' (by decide), hvisible⟩

theorem isPlain_doubleText (f : DoubleFields) : isPlain (doubleText f) = true :=
  isPlain_of_mem fun c hc =>
    isPlainChar_of_isTokenChar (isTokenChar_of_isNumber (isNumber_doubleText f) c hc)

theorem clean_double (f : DoubleFields) : Clean (jsonAppendValueDouble f).text 140 := by
  unfold jsonAppendValueDouble
  split_ifs with hfinite hnan hnegative
  · exact (clean_plain (isPlain_doubleText f) (length_doubleText_le hfinite)).mono (by decide)
  all_goals
    exact (((clean_literal (n := 21) _ (by decide) (by decide)).andThen
      (clean_literal (n := 9) _ (by decide) (by decide))).andThen
        (clean_literal (n := 3) _ (by decide) (by decide))).mono (by decide)

theorem clean_quoted {before after : String} (h : Utf8Spells true s cs)
    (hbefore : Clean (literal before).text m) (hafter : Clean (literal after).text n)
    (allowNul : Bool) :
    Clean (((literal before).andThen (jsonAppendEscaped allowNul s)).andThen
      (literal after)).text (m + 6 * s.length + n) :=
  (hbefore.andThen (clean_jsonAppendEscaped h)).andThen hafter

theorem clean_utf8 (h : Utf8Spells true s cs) :
    Clean (jsonAppendValueUtf8 true s).text (1 + 6 * s.length + 1) :=
  clean_quoted h (clean_literal _ (by decide) (by decide))
    (clean_literal _ (by decide) (by decide)) true

theorem clean_code (h : Utf8Spells true s cs) :
    Clean (jsonAppendValueCode s).text (13 + 6 * s.length + 3) :=
  clean_quoted h (clean_literal _ (by decide) (by decide))
    (clean_literal _ (by decide) (by decide)) true

theorem clean_symbol (h : Utf8Spells true s cs) :
    Clean (jsonAppendValueSymbol s).text (15 + 6 * s.length + 3) :=
  clean_quoted h (clean_literal _ (by decide) (by decide))
    (clean_literal _ (by decide) (by decide)) true

theorem clean_oid {oid : List UInt8} (h : oid.length ≤ 12) :
    Clean (jsonAppendValueOid oid).text (12 + 4 * 24 + 3) := by
  have hlength : (bsonOidToString oid).toList.length ≤ 24 := by
    rw [bsonOidToString, String.toList_ofList, List.length_flatMap]
    simp only [List.length_cons, List.length_nil, List.map_const', List.sum_replicate_nat]
    omega
  exact ((clean_literal _ (by decide) (by decide)).andThen
    (clean_plain (isPlain_bsonOidToString oid) hlength)).andThen
      (clean_literal _ (by decide) (by decide))

theorem length_ntop_le (bytes : List UInt8) :
    (mcommonB64Ntop bytes).length ≤ 2 * bytes.length + 4 := by
  fun_induction mcommonB64Ntop bytes <;> simp only [List.length_cons, List.length_nil] <;> omega

theorem clean_binary (subtype : UInt8) (bytes : List UInt8) :
    Clean (jsonAppendValueBinary subtype bytes).text (8 * bytes.length + 120) := by
  have htail : isPlain (twoHexDigits subtype) = true := by
    simp only [twoHexDigits, isPlain_cons, isPlainChar_hexDigit, Bool.true_and]
    rfl
  have hend : Clean (chars (twoHexDigits subtype ++ "\" \x7d \x7d".toList)).text (4 * 2 + 5) := by
    have hsplit := (clean_plain htail (n := 2) (Nat.le_refl 2)).append
      (clean_literal "\" \x7d \x7d" (n := 5) (by decide) (by decide))
    simpa [chars, Appended.literal] using hsplit
  exact ((((clean_literal (n := 28) _ (by decide) (by decide)).andThen
    (clean_plain (isPlain_ntop bytes) (length_ntop_le bytes))).andThen
      (clean_literal (n := 16) _ (by decide) (by decide))).andThen hend).mono (by omega)

theorem clean_decimal128 (dec : BsonDecimal128) :
    Clean (jsonAppendValueDecimal128 dec).text 200 := by
  have hlength := dec.length_toText_lt
  exact (((clean_literal (n := 22) _ (by decide) (by decide)).andThen
    (clean_plain (isPlain_toText dec) hlength.le)).andThen
      (clean_literal (n := 3) _ (by decide) (by decide))).mono (by decide)

theorem length_iso8601Text_le {msecSinceEpoch : ℤ} (h : 0 ≤ msecSinceEpoch)
    (h' : msecSinceEpoch < 253402300800000) : (iso8601Text msecSinceEpoch).length ≤ 31 := by
  have hsecs : msecSinceEpoch.tdiv 1000 = msecSinceEpoch / 1000 := Int.tdiv_eq_ediv_of_nonneg h
  have hmsec : msecSinceEpoch.tmod 1000 = msecSinceEpoch % 1000 := Int.tmod_eq_emod_of_nonneg h
  have hyear : ((gmtime (msecSinceEpoch / 1000)).year).natAbs < 10 ^ 4 := by
    have hlow := le_year_gmtime_iff 1 (msecSinceEpoch / 1000)
    have hhigh := le_year_gmtime_iff 10000 (msecSinceEpoch / 1000)
    have hfirst : daysBeforeYear 1 = 0 := rfl
    have hlast : daysBeforeYear 10000 = 3652059 := rfl
    omega
  obtain ⟨-, hmonth, -, hday, hhour, hminute, hsecond⟩ := gmtime_valid (msecSinceEpoch / 1000)
  have hdays := monthLengths_getD_le (gmtime (msecSinceEpoch / 1000)).year
    ((gmtime (msecSinceEpoch / 1000)).month - 1)
  have htwo (n : ℕ) (hn : n < 100) : (decimal 2 (n : ℤ)).length ≤ 3 :=
    length_decimal_le (by decide) (Nat.le_refl 2) (by simpa using hn)
  have hthree : (decimal 3 (msecSinceEpoch % 1000)).length ≤ 4 :=
    length_decimal_le (by decide) (Nat.le_refl 3) (by omega)
  have hfour := length_decimal_le (by decide) (Nat.zero_le 4) hyear
  have h₁ := htwo _ (show (gmtime (msecSinceEpoch / 1000)).month < 100 by omega)
  have h₂ := htwo _ (show (gmtime (msecSinceEpoch / 1000)).day < 100 by omega)
  have h₃ := htwo _ (show (gmtime (msecSinceEpoch / 1000)).hour < 100 by omega)
  have h₄ := htwo _ (show (gmtime (msecSinceEpoch / 1000)).minute < 100 by omega)
  have h₅ := htwo _ (show (gmtime (msecSinceEpoch / 1000)).second < 100 by omega)
  simp only [iso8601Text, hsecs, hmsec, strftime, List.length_append, List.length_cons]
  split_ifs
  · simp only [List.length_append, List.length_cons, List.length_nil]
    omega
  · simp only [List.length_cons, List.length_nil]
    omega

theorem clean_dateTime {msecSinceEpoch : ℤ} (h : msecSinceEpoch.natAbs < 10 ^ 19) :
    Clean (jsonAppendValueDateTime msecSinceEpoch).text 160 := by
  unfold jsonAppendValueDateTime
  split_ifs with hrange
  · have hsplit := (clean_literal "\x7b \"$date\" : \x7b \"$numberLong\" : \"" (n := 31)
      (by decide) (by decide)).append ((clean_decimal (by decide) h).append
        (clean_literal "\" \x7d \x7d" (n := 5) (by decide) (by decide)))
    refine Clean.mono (m := 31 + (4 * (19 + 1) + 5)) ?_ (by decide)
    simpa [chars, Appended.literal] using hsplit
  · have hlength : (iso8601Text msecSinceEpoch).length ≤ 31 :=
      length_iso8601Text_le (by omega) (by omega)
    exact (((clean_literal (n := 13) _ (by decide) (by decide)).andThen
      (clean_plain (isPlain_iso8601Text _) hlength)).andThen
        (clean_literal (n := 3) _ (by decide) (by decide))).mono (by decide)

theorem clean_timestamp {timestamp increment : ℕ} (h : timestamp < 2 ^ 32)
    (h' : increment < 2 ^ 32) :
    Clean (jsonAppendValueTimestamp timestamp increment).text 160 := by
  have htimestamp : Clean (chars (decimal 0 timestamp)).text (4 * (10 + 1)) :=
    clean_decimal (by decide) (by omega)
  have hincrement : Clean (chars (decimal 0 increment)).text (4 * (10 + 1)) :=
    clean_decimal (by decide) (by omega)
  have hsplit := (clean_literal "\x7b \"$timestamp\" : \x7b \"t\" : " (n := 25) (by decide)
    (by decide)).append (htimestamp.append ((clean_literal ", \"i\" : " (n := 8) (by decide)
      (by decide)).append (hincrement.append (clean_literal " \x7d \x7d" (n := 4) (by decide)
        (by decide)))))
  refine Clean.mono (m := 25 + (4 * (10 + 1) + (8 + (4 * (10 + 1) + 4)))) ?_ (by decide)
  simpa [jsonAppendValueTimestamp, chars, Appended.literal] using hsplit

theorem clean_regex (h : Utf8Spells true s cs) (options : List UInt8) :
    Clean (jsonAppendValueRegex s options).text (90 + 6 * s.length) := by
  have hoptions : isPlain (selectedChars regexOptionsSorted options) = true := by
    have hall : isPlain regexOptionsSorted = true := by decide
    exact isPlain_of_mem fun c hc => List.all_eq_true.mp hall c (List.mem_of_mem_filter hc)
  have hlength : (selectedChars regexOptionsSorted options).length ≤ 6 :=
    List.length_filter_le _ _
  exact ((clean_quoted h (clean_literal (n := 40) _ (by decide) (by decide))
    (clean_literal (n := 16) _ (by decide) (by decide)) false).andThen
      (clean_plain hoptions hlength)).andThen
        (clean_literal (n := 5) _ (by decide) (by decide)) |>.mono (by omega)

theorem clean_dbPointer (h : Utf8Spells true s cs) {oid : List UInt8} (hoid : oid.length ≤ 12) :
    Clean (jsonAppendValueDbPointer s oid).text (160 + 6 * s.length) := by
  exact (((clean_quoted h (clean_literal (n := 29) _ (by decide) (by decide))
    (clean_literal (n := 1) _ (by decide) (by decide)) false).andThen
      (clean_literal (n := 10) _ (by decide) (by decide))).andThen (clean_oid hoid)).andThen
        (clean_literal (n := 4) _ (by decide) (by decide)) |>.mono (by omega)

theorem clean_codeWScope (h : Utf8Spells true s cs) {r : Rendered} (hr : Clean r.text n) :
    Clean (jsonAppendValueCodeWScope s r).text (13 + (6 * s.length + (14 + (n + 2)))) :=
  (clean_literal _ (by decide) (by decide)).append ((clean_jsonAppendEscaped h).append
    ((clean_literal _ (by decide) (by decide)).append (hr.append
      (clean_literal _ (by decide) (by decide)))))

/-! ## Visits -/

def Visited.text : Visited → List UInt8
  | .next text _ => text
  | .stop text _ => text

theorem text_visited (a : Appended) : (visited a).text = a.text := by
  unfold visited
  split_ifs <;> rfl

theorem clean_visited {a : Appended} (h : Clean a.text m) (hmn : m ≤ n) :
    Clean (visited a).text n := by
  rw [text_visited]
  exact h.mono hmn

theorem clean_visitedText {a : Appended}
    (h : ∀ cs, Utf8Spells true s cs → Clean a.text n) : Clean (visitedText s a).text n := by
  unfold visitedText
  split_ifs with hvalid
  · obtain ⟨cs, hspells⟩ := (validate_iff_spells true s).mp hvalid
    exact clean_visited (h cs hspells) (Nat.le_refl n)
  · exact clean_nil

theorem clean_visitedEmbedded {f : Bson → Rendered}
    (h : ∀ b : Bson, b.bytes = bs → Clean (f b).text n) : Clean (visitedEmbedded bs f).text n := by
  unfold visitedEmbedded
  split
  · exact clean_nil
  · rename_i b hinit
    have hclean := h b (bytes_of_bsonInitStatic hinit)
    unfold visitedContainer
    split_ifs <;> exact hclean

/-- Embedded documents and arrays are rendered in 32 times their length. -/
def NestedClean (nested : Bool → Bson → Rendered) : Prop :=
  ∀ isDocument b, Clean (nested isDocument b).text (32 * b.bytes.length)

theorem toNat_readI32le_le (bs : List UInt8) : (readI32le bs).toNat ≤ readU32le bs := by
  rw [readI32le]
  rcases Nat.lt_or_ge (readU32le bs) (2 ^ 31) with hlt | hge
  · rw [toInt32_of_lt hlt, Int.toNat_natCast]
  · have hneg := toInt32_neg hge (readU32le_lt bs)
    omega

theorem length_bsonIterUtf8_le (it : BsonIter) :
    (bsonIterUtf8WithLen it).length ≤ readU32le (it.data.drop it.d1) - 1 := by
  have hread := toNat_readI32le_le (it.data.drop it.d1)
  refine (List.length_take_le _ _).trans ?_
  rw [bsonIterUtf8Len]
  omega

theorem natAbs_readI32le_lt (bs : List UInt8) : (readI32le bs).natAbs < 10 ^ 10 := by
  have hlow := BitVec.le_toInt (BitVec.ofNat 32 (readU32le bs))
  have hhigh := BitVec.toInt_lt (x := BitVec.ofNat 32 (readU32le bs))
  rw [readI32le, toInt32]
  omega

theorem natAbs_readI64le_lt (bs : List UInt8) : (readI64le bs).natAbs < 10 ^ 19 := by
  have hlow := BitVec.le_toInt (BitVec.ofNat 64 (ofBytes (bs.take 8)))
  have hhigh := BitVec.toInt_lt (x := BitVec.ofNat 64 (ofBytes (bs.take 8)))
  rw [readI64le]
  omega

theorem text_nextOff {data : List UInt8} {start o : ℕ} {f : Fields}
    (h : elementFields data start o (some .utf8) = .ok f) :
    0 < readU32le (data.drop o) ∧ f.nextOff = o + 4 + readU32le (data.drop o) := by
  simp only [elementFields] at h
  split_ifs at h
  cases h
  exact ⟨by omega, rfl⟩

theorem length_bsonIterBinary_le (it : BsonIter) :
    (bsonIterBinary it).2.length ≤ readU32le (it.data.drop it.d1) := by
  simp only [bsonIterBinary]
  split_ifs
  · exact (List.length_take_le _ _).trans (Nat.sub_le _ 4)
  · exact List.length_take_le _ _

theorem regex_nextOff {data : List UInt8} {start o : ℕ} {f : Fields}
    (h : elementFields data start o (some .regex) = .ok f) :
    o + (cString (data.drop o)).length + 2 ≤ f.nextOff := by
  simp only [elementFields] at h
  split at h
  · cases h
  · rename_i eor heor
    split at h
    · cases h
    · rename_i eoo heoo
      obtain ⟨pattern, hzero, hdrop, rfl⟩ := findZero_eq_some heor
      obtain ⟨options, -, -, rfl⟩ := findZero_eq_some heoo
      obtain rfl := Except.ok.inj h
      rw [hdrop, cString_append_zero, cString_of_not_mem hzero]
      simp only
      omega

theorem codeWScope_nextOff {data : List UInt8} {start o : ℕ} {f : Fields} {b : Bson}
    (h : elementFields data start o (some .codeWScope) = .ok f)
    (hb : b.bytes = (data.drop f.d4).take (readU32le (data.drop f.d4))) :
    8 + readU32le (data.drop f.d2) + b.bytes.length ≤ f.nextOff - o := by
  have hfive := b.framed.five_le
  have hshort := b.framed.lt_two_pow
  have hheader := b.framed.header
  rw [hb] at hfive
  rw [List.length_take] at hfive
  have hsame : readU32le b.bytes = readU32le (data.drop f.d4) := by
    rw [hb, readU32le, List.take_take, Nat.min_eq_left (by omega), ← readU32le]
  simp only [elementFields] at h
  split_ifs at h with h₁ h₂ h₃ h₄ h₅ h₆
  cases h
  simp only at hsame ⊢
  have hfour : o + 4 + 4 = o + 8 := rfl
  rw [hheader] at hsame
  omega

/-- What is appended for a value is at most 32 times as long, but for what every value has. -/
theorem clean_visitValue {key : List UInt8} (h : MovesTo it it' key)
    (hnested : NestedClean nested) :
    Clean (visitValue nested it').text (57 + 32 * (it'.nextOff - it'.d1)) := by
  have hf := h.fields
  have hinside := h.inside
  rw [← h.data_eq] at hf hinside
  have htext (hfields : elementFields it'.data it.nextOff it'.d1 (some .utf8) =
      .ok ⟨it'.d2, it'.d3, it'.d4, it'.nextOff⟩) :
      6 * (bsonIterUtf8WithLen it').length + 57 ≤ 57 + 32 * (it'.nextOff - it'.d1) := by
    obtain ⟨hpos, hnext⟩ := text_nextOff hfields
    have hlength := length_bsonIterUtf8_le it'
    simp only at hnext
    omega
  have hembedded {isDocument : Bool}
      (htype : bsonIterType it' = some .array ∨ bsonIterType it' = some .document) :
      Clean (visitedEmbedded it'.embedded (nested isDocument)).text
        (57 + 32 * (it'.nextOff - it'.d1)) := by
    obtain ⟨hlength, hnext, -⟩ := h.embedded_spec htype
    refine clean_visitedEmbedded fun b hb => (hnested isDocument b).mono ?_
    rw [hb, hlength]
    omega
  unfold visitValue
  cases htype : bsonIterType it' with
  | none => exact clean_nil
  | some t =>
    rw [htype] at hf
    cases t with
    | double =>
      simp only [elementFields, Except.ok.injEq, Fields.mk.injEq] at hf
      exact clean_visited (clean_double _) (by omega)
    | utf8 =>
      have hle := htext hf
      exact clean_visitedText fun cs hcs => (clean_utf8 hcs).mono (by omega)
    | code =>
      have hle := htext hf
      exact clean_visitedText fun cs hcs => (clean_code hcs).mono (by omega)
    | symbol =>
      have hle := htext hf
      exact clean_visitedText fun cs hcs => (clean_symbol hcs).mono (by omega)
    | document => exact hembedded (.inr htype)
    | array => exact hembedded (.inl htype)
    | binary =>
      have hlength := length_bsonIterBinary_le it'
      have hnext : it'.d1 + 5 + readU32le (it'.data.drop it'.d1) = it'.nextOff := by
        simp only [elementFields] at hf
        split_ifs at hf
        all_goals
          simp only [Except.ok.injEq, Fields.mk.injEq] at hf
          omega
      exact clean_visited (clean_binary _ _) (by omega)
    | undefined =>
      exact clean_visited (clean_literal (n := 23) _ (by decide) (by decide)) (by omega)
    | oid =>
      simp only [elementFields, Except.ok.injEq, Fields.mk.injEq] at hf
      exact clean_visited (clean_oid (List.length_take_le _ _)) (by omega)
    | bool =>
      have hword : Clean (literal
          (if byteAt it'.data it'.d1 ≠ 0 then "true" else "false")).text 5 := by
        split_ifs <;> exact clean_literal _ (by decide) (by decide)
      exact clean_visited hword (by omega)
    | dateTime =>
      simp only [elementFields, Except.ok.injEq, Fields.mk.injEq] at hf
      exact clean_visited (clean_dateTime (natAbs_readI64le_lt _)) (by omega)
    | null => exact clean_visited (clean_literal (n := 4) _ (by decide) (by decide)) (by omega)
    | regex =>
      have hnext := regex_nextOff hf
      simp only at hnext
      exact clean_visitedText fun cs hcs => (clean_regex hcs _).mono (by omega)
    | dbPointer =>
      have hlength : (bsonIterCollection it').length ≤ readU32le (it'.data.drop it'.d1) - 1 :=
        List.length_take_le _ _
      have hnext : it'.d1 + 4 + readU32le (it'.data.drop it'.d1) + 12 = it'.nextOff := by
        simp only [elementFields] at hf
        split_ifs at hf
        simp only [Except.ok.injEq, Fields.mk.injEq] at hf
        omega
      exact clean_visitedText fun cs hcs =>
        (clean_dbPointer hcs (List.length_take_le _ _)).mono (by omega)
    | codeWScope =>
      show Clean (if bsonUtf8Validate true (bsonIterCode it') = true then _ else _ : Visited).text _
      split_ifs with hvalid
      · obtain ⟨cs, hcs⟩ := (validate_iff_spells true _).mp hvalid
        refine clean_visitedEmbedded fun b hb => ?_
        have hnext := codeWScope_nextOff hf hb
        have hlength : (bsonIterCode it').length ≤ readU32le (it'.data.drop it'.d2) - 1 :=
          List.length_take_le _ _
        simp only at hnext
        exact (clean_codeWScope hcs (hnested true b)).mono (by omega)
      · exact clean_nil
    | int32 =>
      exact clean_visited (clean_decimal (by decide) (natAbs_readI32le_lt _)) (by omega)
    | timestamp =>
      simp only [elementFields, Except.ok.injEq, Fields.mk.injEq] at hf
      exact clean_visited (clean_timestamp (readU32le_lt _) (readU32le_lt _)) (by omega)
    | int64 =>
      simp only [elementFields, Except.ok.injEq, Fields.mk.injEq] at hf
      exact clean_visited (clean_decimal (by decide) (natAbs_readI64le_lt _)) (by omega)
    | decimal128 =>
      simp only [elementFields, Except.ok.injEq, Fields.mk.injEq] at hf
      exact clean_visited (clean_decimal128 _) (by omega)
    | maxKey => exact clean_visited (clean_literal (n := 17) _ (by decide) (by decide)) (by omega)
    | minKey => exact clean_visited (clean_literal (n := 17) _ (by decide) (by decide)) (by omega)
    | eod => exact clean_nil

theorem length_key {key : List UInt8} (h : MovesTo it it' key) : bsonIterKey it' = key := by
  have hsplit := congrArg List.tail h.split
  rw [List.tail_drop, List.tail_cons] at hsplit
  rw [bsonIterKey, h.data_eq, h.key_eq, hsplit, cString_append_zero, cString_of_not_mem h.key_zero]

theorem clean_visitBefore {key : List UInt8} (h : Utf8Spells false key cs)
    (hasKeys notFirstItem : Bool) :
    Clean (jsonAppendVisitBefore hasKeys notFirstItem key).text (7 + 6 * key.length) := by
  have hseparator : Clean (if notFirstItem then literal ", " else ⟨[], true⟩).text 2 := by
    split_ifs
    · exact clean_literal _ (by decide) (by decide)
    · exact clean_nil
  have hkey : Clean (jsonAppendKey key).text (1 + 6 * key.length + 4) :=
    ((clean_literal _ (by decide) (by decide)).andThen (clean_jsonAppendEscaped h)).andThen
      (clean_literal _ (by decide) (by decide))
  unfold jsonAppendVisitBefore
  cases hasKeys with
  | true => exact (hseparator.andThen hkey).mono (by omega)
  | false => exact hseparator.mono (by omega)

theorem clean_visitAll (hnested : NestedClean nested) (it : BsonIter) :
    Clean (bsonIterVisitAll nested hasKeys notFirstItem it).text (32 * it.remaining) := by
  induction hn : it.remaining using Nat.strong_induction_on generalizing it notFirstItem with
  | _ n ih =>
    subst hn
    rcases hnext : bsonIterNext it with ⟨_ | _, it'⟩
    · rw [visitAll_stop hnext]
      exact clean_nil
    · obtain ⟨key, hmove⟩ := movesTo_of_next hnext
      have hless := hmove.remaining_lt
      have hd1 := hmove.d1_eq
      have hle := hmove.d1_le_nextOff
      have hinside := hmove.inside
      have hremaining : it'.remaining = it.data.length - it'.nextOff := by
        rw [BsonIter.remaining, hmove.data_eq]
      have hwhole : it.remaining = it.data.length - it.nextOff := rfl
      rw [visitAll_next hnext, length_key hmove]
      split_ifs with hkey
      · exact clean_nil
      have hspells : ∃ cs, Utf8Spells false key cs := by
        rw [← validate_iff_spells]
        by_cases hnil : key = []
        · rw [hnil, bsonUtf8Validate]
        · simpa [hnil] using hkey
      obtain ⟨cs, hcs⟩ := hspells
      have hbefore := clean_visitBefore hcs hasKeys notFirstItem
      have hvalue := clean_visitValue hmove hnested
      have hrest (e : ℕ) : Clean (bsonIterVisitAll nested hasKeys true
          { it' with errOff := e }).text (32 * it'.remaining) :=
        ih _ (by omega) { it' with errOff := e } rfl
      simp only
      split_ifs with hok
      · exact hbefore.mono (by omega)
      · split
        · rename_i text valid heq
          rw [heq] at hvalue
          exact (hbefore.append hvalue).mono (by omega)
        · rename_i text marked heq
          rw [heq] at hvalue
          exact (hbefore.append (hvalue.append (hrest _))).mono (by omega)

theorem clean_short (depth : ℕ) (isDocument : Bool) {b : Bson}
    (h : bsonEmpty b = true ∨ depth = 0) :
    Clean (jsonAppendBsonContainer depth isDocument b).text 160 := by
  have hempty :
      Clean (literal (if isDocument then documentTexts else arrayTexts).empty).text 160 := by
    cases isDocument <;> exact clean_literal _ (by decide) (by decide)
  have homitted :
      Clean (literal (if isDocument then documentTexts else arrayTexts).omitted).text 160 := by
    cases isDocument <;> exact clean_literal _ (by decide) (by decide)
  cases depth with
  | zero =>
    by_cases hb : bsonEmpty b = true
    · simp only [jsonAppendBsonContainer, if_pos hb]
      exact hempty
    · simp only [jsonAppendBsonContainer, if_neg hb]
      exact homitted
  | succ depth =>
    have hb : bsonEmpty b = true := h.resolve_right (Nat.succ_ne_zero depth)
    simp only [jsonAppendBsonContainer, if_pos hb]
    exact hempty

theorem clean_container (depth : ℕ) : NestedClean (jsonAppendBsonContainer depth) := by
  induction depth with
  | zero =>
    intro isDocument b
    have hfive := b.framed.five_le
    exact (clean_short 0 isDocument (.inr rfl)).mono (by omega)
  | succ depth ih =>
    intro isDocument b
    have hfive := b.framed.five_le
    by_cases hb : bsonEmpty b = true
    · exact (clean_short (depth + 1) isDocument (.inl hb)).mono (by omega)
    · have hvalues : Clean (bsonIterVisitAll (jsonAppendBsonContainer depth) isDocument false
          (bsonIterInit b)).text (32 * (b.bytes.length - 4)) := clean_visitAll ih (bsonIterInit b)
      have hends (texts : ContainerTexts) (htexts : texts = documentTexts ∨ texts = arrayTexts) :
          Clean (literal texts.beginNonEmpty).text 2 ∧
            Clean (literal texts.endNonEmpty).text 2 := by
        rcases htexts with rfl | rfl <;>
          exact ⟨clean_literal _ (by decide) (by decide), clean_literal _ (by decide) (by decide)⟩
      obtain ⟨hopening, hclosing⟩ := hends (if isDocument then documentTexts else arrayTexts)
        (by cases isDocument <;> simp)
      simp only [jsonAppendBsonContainer, if_neg hb]
      exact (hopening.append (hvalues.append hclosing)).mono (by omega)

/-- No document of less than 128 MiB is cut off. -/
theorem bsonAsRelaxedExtendedJson_eq {b : Bson} (h : b.bytes.length < 2 ^ 27) :
    bsonAsRelaxedExtendedJson b =
      if (jsonAppendBsonContainer bsonMaxRecursion true b).valid then
        .text (jsonAppendBsonContainer bsonMaxRecursion true b).text
      else .null := by
  have hlength := (clean_container bsonMaxRecursion true b).length_le
  unfold bsonAsRelaxedExtendedJson
  simp only
  rw [if_neg (by omega)]

theorem not_truncated {b : Bson} (h : b.bytes.length < 2 ^ 27) :
    bsonAsRelaxedExtendedJson b ≠ .truncated := by
  rw [bsonAsRelaxedExtendedJson_eq h]
  split_ifs <;> exact JsonOutcome.noConfusion

theorem braced_container (depth : ℕ) (b : Bson) :
    ∃ bytes, (jsonAppendBsonContainer depth true b).text = 0x7b :: bytes := by
  cases depth with
  | zero =>
    simp only [jsonAppendBsonContainer, if_true]
    split_ifs <;> exact ⟨_, rfl⟩
  | succ depth =>
    simp only [jsonAppendBsonContainer, if_true]
    split_ifs <;> exact ⟨_, rfl⟩

theorem head_of_utf8Bytes {c : Char} {bytes : List UInt8} (hc : c.toNat < 128)
    (h : utf8Bytes cs = UInt8.ofNat c.toNat :: bytes) : ∃ cs', cs = c :: cs' := by
  cases cs with
  | nil => cases h
  | cons c' cs =>
    have hbyte : (UInt8.ofNat c.toNat).toNat = c.toNat := by
      rw [UInt8.toNat_ofNat']
      omega
    rw [utf8Bytes_cons] at h
    by_cases hc' : c'.toNat < 128
    · rw [utf8EncodeChar_of_lt hc'] at h
      have hhead := congrArg UInt8.toNat (List.cons.inj h).1
      rw [hbyte, UInt8.toNat_ofNat', Nat.mod_eq_of_lt (by omega)] at hhead
      exact ⟨cs, by rw [Char.toNat_inj.mp hhead]⟩
    · have hmem : UInt8.ofNat c.toNat ∈ String.utf8EncodeChar c' := by
        have hpos := c'.utf8Size_pos
        rw [← String.length_utf8EncodeChar] at hpos
        cases hbytes : String.utf8EncodeChar c' with
        | nil => simp [hbytes] at hpos
        | cons b rest =>
          rw [hbytes, List.cons_append] at h
          rw [(List.cons.inj h).1]
          exact List.mem_cons_self
      have hle := (mem_utf8EncodeChar (Nat.le_of_not_lt hc') hmem).1
      omega

/-- Of any bytes, a text that is returned is in UTF-8, begins with a brace and has no control
characters. -/
theorem text_of_bytes {b : Bson} {text : List UInt8}
    (h : bsonAsRelaxedExtendedJson b = .text text) :
    ∃ cs, utf8Chars text = some ('\x7b' :: cs) ∧ ∀ c ∈ cs, 32 ≤ c.toNat := by
  have htext : text = (jsonAppendBsonContainer bsonMaxRecursion true b).text := by
    unfold bsonAsRelaxedExtendedJson at h
    simp only at h
    split_ifs at h
    exact (JsonOutcome.text.inj h).symm
  obtain ⟨bytes, hbytes⟩ := braced_container bsonMaxRecursion b
  obtain ⟨cs, hcs, hvisible⟩ := (clean_container bsonMaxRecursion true b).chars
  rw [htext, utf8Chars_eq_some_iff.mpr hcs.symm]
  obtain ⟨cs', rfl⟩ := head_of_utf8Bytes (c := '\x7b') (by decide) (hcs.symm.trans hbytes)
  exact ⟨cs', rfl, fun c hc => hvisible c (List.mem_cons_of_mem _ hc)⟩

end Mongolite
