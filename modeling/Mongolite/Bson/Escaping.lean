import Mongolite.Bson.Utf8Validate
import Mongolite.Library.JsonSpelling

/-! # Texts in JSON output

`mcommon_json_append_escaped` works on bytes and leaves most of them alone. For
a text in UTF-8 it escapes the characters that JSON wants escaped, so the JSON
output shows the same text.
-/

namespace Mongolite

open Json

variable {allowNul : Bool} {s rest : List UInt8} {cs : List Char} {b : UInt8} {c : Char}

def mcommonJsonAppendHexChar (c : UInt8) : List UInt8 :=
  utf8Bytes ['\\', 'u', '0', '0', hexChar (c.toNat / 16), hexChar (c.toNat % 16)]

def escapeByte (c : UInt8) : List UInt8 :=
  if c = 0x22 then utf8Bytes ['\\', '"']
  else if c = 0x5C then utf8Bytes ['\\', '\\']
  else if c = 0x08 then utf8Bytes ['\\', 'b']
  else if c = 0x0C then utf8Bytes ['\\', 'f']
  else if c = 0x0A then utf8Bytes ['\\', 'n']
  else if c = 0x0D then utf8Bytes ['\\', 'r']
  else if c = 0x09 then utf8Bytes ['\\', 't']
  else if c < 0x20 then mcommonJsonAppendHexChar c
  else [c]

/-- What was appended to a text, and whether all of it could be. -/
structure Appended where
  text : List UInt8
  ok : Bool

namespace Appended

def chars (cs : List Char) : Appended := ⟨utf8Bytes cs, true⟩

def literal (s : String) : Appended := chars s.toList

/-- `&&` between two calls that append. -/
def andThen (a b : Appended) : Appended := if a.ok then ⟨a.text ++ b.text, b.ok⟩ else a

def push (bytes : List UInt8) (a : Appended) : Appended := ⟨bytes ++ a.text, a.ok⟩

def toOption (a : Appended) : Option (List UInt8) := if a.ok then some a.text else none

end Appended

open Appended

/-- `mcommon_json_append_escaped` with what it appends before a failure. -/
def jsonAppendEscaped (allowNul : Bool) : List UInt8 → Appended
  | [] => ⟨[], true⟩
  -- a zero byte may also come as two bytes
  | 0xC0 :: 0x80 :: str =>
    if allowNul then (jsonAppendEscaped allowNul str).push (mcommonJsonAppendHexChar 0)
    else ⟨[], false⟩
  | c :: str =>
    if c = 0 ∧ allowNul = false then ⟨[], false⟩
    else (jsonAppendEscaped allowNul str).push (escapeByte c)

def jsonAppendValueUtf8 (allowNul : Bool) (str : List UInt8) : Appended :=
  ((literal "\"").andThen (jsonAppendEscaped allowNul str)).andThen (literal "\"")

def jsonAppendKey (key : List UInt8) : Appended :=
  ((literal "\"").andThen (jsonAppendEscaped false key)).andThen (literal "\" : ")

/-- The text that a reader of JSON sees in a literal. -/
def shownText (literal : List UInt8) : Option (List ℕ) :=
  (utf8Chars literal).bind fun text =>
    match parse text with
    | some (.string s) => some s
    | _ => none

theorem escapeByte_of_le (h : 128 ≤ b.toNat) : escapeByte b = [b] := by
  have hne (k : UInt8) (hk : k.toNat < 128) : b ≠ k := by
    rintro rfl
    omega
  have hlt : ¬ b < 0x20 := by
    rw [UInt8.lt_iff_toNat_lt]
    exact Nat.not_lt_of_le (Nat.le_trans (by decide) h)
  rw [escapeByte, if_neg (hne _ (by decide)), if_neg (hne _ (by decide)),
    if_neg (hne _ (by decide)), if_neg (hne _ (by decide)), if_neg (hne _ (by decide)),
    if_neg (hne _ (by decide)), if_neg (hne _ (by decide)), if_neg hlt]

theorem escapeChar_of_le (h : 128 ≤ c.toNat) : escapeChar c = [c] := by
  have hne (k : Char) (hk : k.toNat < 128) : c ≠ k := by
    rintro rfl
    omega
  rw [escapeChar, if_neg (hne _ (by decide)), if_neg (hne _ (by decide)),
    if_neg (hne _ (by decide)), if_neg (hne _ (by decide)), if_neg (hne _ (by decide)),
    if_neg (hne _ (by decide)), if_neg (hne _ (by decide)), if_neg (by omega)]

theorem escapeByte_ascii (h : c.toNat < 128) :
    escapeByte (UInt8.ofNat c.toNat) = utf8Bytes (escapeChar c) := by
  have hall : ∀ n < 128, escapeByte (UInt8.ofNat n) = utf8Bytes (escapeChar (Char.ofNat n)) := by
    decide +kernel
  rw [hall _ h, Char.ofNat_toNat]

@[simp] theorem chars_andThen_chars (cs cs' : List Char) :
    (chars cs).andThen (chars cs') = chars (cs ++ cs') := by
  simp [Appended.andThen, chars]

theorem push_push (a : Appended) (bytes bytes' : List UInt8) :
    (a.push bytes').push bytes = a.push (bytes ++ bytes') := by
  simp [push]

theorem jsonAppendEscaped_cons (hb : b.toNat ≠ 0xC0) (str : List UInt8) :
    jsonAppendEscaped allowNul (b :: str) =
      if b = 0 ∧ allowNul = false then ⟨[], false⟩
      else (jsonAppendEscaped allowNul str).push (escapeByte b) := by
  rw [jsonAppendEscaped]
  rintro str' rfl
  exact absurd rfl hb

theorem jsonAppendEscaped_append (h : ∀ b ∈ s, 128 ≤ b.toNat ∧ b.toNat ≠ 0xC0)
    (str : List UInt8) :
    jsonAppendEscaped allowNul (s ++ str) = (jsonAppendEscaped allowNul str).push s := by
  induction s with
  | nil => rfl
  | cons b s ih =>
    rw [List.forall_mem_cons] at h
    obtain ⟨⟨hle, hne⟩, hs⟩ := h
    have hzero : b ≠ 0 := by
      rintro rfl
      exact absurd hle (by decide)
    rw [List.cons_append, jsonAppendEscaped_cons hne, if_neg fun h => hzero h.1, ih hs,
      escapeByte_of_le hle, push_push, List.singleton_append]

theorem jsonAppendEscaped_char (hnul : allowNul = true ∨ c ≠ '\x00') (str : List UInt8) :
    jsonAppendEscaped allowNul (String.utf8EncodeChar c ++ str) =
      (jsonAppendEscaped allowNul str).push (utf8Bytes (escapeChar c)) := by
  by_cases hc : c.toNat < 128
  · have hbyte : (UInt8.ofNat c.toNat).toNat = c.toNat := by
      rw [UInt8.toNat_ofNat']
      omega
    have hsome : ¬ (UInt8.ofNat c.toNat = 0 ∧ allowNul = false) := by
      rintro ⟨hzero, rfl⟩
      rw [hzero] at hbyte
      exact hnul.resolve_left Bool.false_ne_true (Char.toNat_inj.mp hbyte.symm)
    rw [utf8EncodeChar_of_lt hc, List.singleton_append, jsonAppendEscaped_cons (by omega),
      if_neg hsome, escapeByte_ascii hc]
  · have hle : 128 ≤ c.toNat := Nat.le_of_not_lt hc
    rw [jsonAppendEscaped_append fun b hb => mem_utf8EncodeChar hle hb, escapeChar_of_le hle]
    simp

theorem jsonAppendEscaped_null (str : List UInt8) :
    jsonAppendEscaped allowNul (0xC0 :: 0x80 :: str) =
      if allowNul then (jsonAppendEscaped allowNul str).push (utf8Bytes (escapeChar '\x00'))
      else ⟨[], false⟩ := by
  rw [jsonAppendEscaped]
  rfl

/-- The characters of a text are appended, those escaped that want it. -/
theorem jsonAppendEscaped_of_textChars (h : textChars allowNul s = some cs) :
    jsonAppendEscaped allowNul s = chars (escape cs) := by
  induction textChars_eq_some_iff.mp h with
  | nil => rfl
  | char c hnul hspells ih =>
    rw [jsonAppendEscaped_char hnul, ih (textChars_eq_some_iff.mpr hspells)]
    simp [chars, push, escape]
  | null hnul hspells ih =>
    rw [jsonAppendEscaped_null, if_pos hnul, ih (textChars_eq_some_iff.mpr hspells)]
    simp [chars, push, escape]

theorem spells_escape (cs : List Char) : Spells (quoted (escape cs)) (jsonString cs) :=
  spells_quoted (stringBody_escape cs)

theorem jsonAppendValueUtf8_eq (h : textChars allowNul s = some cs) :
    jsonAppendValueUtf8 allowNul s = chars (quoted (escape cs)) := by
  rw [jsonAppendValueUtf8, jsonAppendEscaped_of_textChars h, Appended.literal, chars_andThen_chars,
    chars_andThen_chars]
  rfl

theorem Appended.andThen_assoc (a b c : Appended) :
    (a.andThen b).andThen c = a.andThen (b.andThen c) := by
  unfold Appended.andThen
  split_ifs <;> simp_all

theorem jsonAppendKey_eq_andThen (key : List UInt8) :
    jsonAppendKey key = (jsonAppendValueUtf8 false key).andThen (literal " : ") := by
  have hcolon : (literal "\"").andThen (literal " : ") = literal "\" : " := chars_andThen_chars _ _
  rw [jsonAppendValueUtf8, Appended.andThen_assoc _ (literal "\""), hcolon, jsonAppendKey]

theorem jsonAppendKey_eq (h : textChars false s = some cs) :
    jsonAppendKey s = chars (quoted (escape cs) ++ " : ".toList) := by
  rw [jsonAppendKey_eq_andThen, jsonAppendValueUtf8_eq h, Appended.literal, chars_andThen_chars]

theorem zero_mem_utf8Bytes (h : '\x00' ∈ cs) : 0 ∈ utf8Bytes cs :=
  List.mem_flatMap.mpr ⟨_, h, List.mem_singleton_self 0⟩

theorem shownText_of_utf8Chars (h : utf8Chars s = some cs) (hnul : allowNul = true ∨ 0 ∉ s) :
    ∃ literal, (jsonAppendValueUtf8 allowNul s).toOption = some literal ∧
      shownText literal = some (cs.map Char.toNat) := by
  obtain rfl := utf8Chars_eq_some_iff.mp h
  have hspells : Utf8Spells allowNul (utf8Bytes cs) cs :=
    spells_utf8Bytes (hnul.imp_right (mt zero_mem_utf8Bytes))
  refine ⟨utf8Bytes (quoted (escape cs)), ?_, ?_⟩
  · rw [jsonAppendValueUtf8_eq (textChars_eq_some_iff.mpr hspells)]
    rfl
  · rw [shownText, utf8Chars_utf8Bytes, Option.bind_some, parse_of_spells (spells_escape cs)]
    rfl

end Mongolite
