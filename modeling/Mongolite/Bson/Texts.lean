import Mathlib.Data.Set.Defs
import Mongolite.Bson.Escaping
import Mongolite.Bson.Shape

/-! # Texts in lists

`bson2list` makes strings of the keys of a document and of its string, code and
symbol values. The keys are declared to be in the native encoding, and all
strings end at their first zero byte; the JSON output does neither, but it
leaves out what is nested more than 200 levels deep.
-/

namespace Mongolite

/-- The encoding of a session: whatever bytes stand for in it, ASCII stands for itself. -/
structure NativeEncoding where
  decode : List UInt8 → Option (List Char)
  decode_ascii : ∀ bs, (∀ b ∈ bs, b.toNat < 128) →
    decode bs = some (bs.map fun b => Char.ofNat b.toNat)

namespace NativeEncoding

def utf8 : NativeEncoding := ⟨utf8Chars, fun _ => utf8Chars_ascii⟩

def latin1 : NativeEncoding := ⟨fun bs => some (bs.map fun b => Char.ofNat b.toNat), fun _ _ => rfl⟩

end NativeEncoding

inductive DeclaredEncoding where
  | native
  | utf8
  deriving DecidableEq, Repr

structure RString where
  bytes : List UInt8
  declared : DeclaredEncoding
  deriving DecidableEq, Repr

namespace RString

def mkChar (str : List UInt8) : RString := ⟨str, .native⟩

/-- `Rf_mkCharCE`; a string of ASCII characters is declared to be in no encoding. -/
def mkCharCE (str : List UInt8) (enc : DeclaredEncoding) : RString :=
  if str.all (fun b => b.toNat < 128) then ⟨str, .native⟩ else ⟨str, enc⟩

def chars (native : NativeEncoding) (r : RString) : Option (List Char) :=
  match r.declared with
  | .native => native.decode r.bytes
  | .utf8 => utf8Chars r.bytes

theorem chars_mkCharCE_utf8 (native : NativeEncoding) (str : List UInt8) :
    (mkCharCE str .utf8).chars native = utf8Chars str := by
  rw [mkCharCE]
  split_ifs with hall
  · have hascii : ∀ b ∈ str, b.toNat < 128 :=
      fun b hb => of_decide_eq_true (List.all_eq_true.mp hall b hb)
    exact (native.decode_ascii str hascii).trans (utf8Chars_ascii hascii).symm
  · rfl

end RString

/-! ## Places of texts -/

def RValue.string : RValue → Option RString
  | .utf8Text bytes => some (.mkCharCE bytes .utf8)
  | _ => none

def RValue.entries : RValue → List (List UInt8 × RValue)
  | .namedList entries => entries
  | _ => []

def RValue.items : RValue → List RValue
  | .list values => values
  | _ => []

/-- A text of a document, with the string and the JSON literal at its place in the list and in the
JSON output, if there are any. -/
structure Place where
  text : List UInt8
  string : Option RString
  literal : Option (List UInt8)

/-- What JSON output shows of a container; `depth` is how many levels more are not left out. -/
def shownAt (depth : ℕ) (literal : Option (List UInt8)) : Option (List UInt8) :=
  if depth = 0 then none else literal

mutual

/-- The places in a value of a container. -/
def BsonValue.places : ℕ → BsonValue → RValue → List Place
  | depth, .utf8 s, v | depth, .code s, v | depth, .symbol s, v =>
    [⟨s, v.string, shownAt depth (jsonAppendValueUtf8 true s).toOption⟩]
  | depth, .document es, v => es.fieldPlaces (depth - 1) v.entries
  | depth, .array es, v => es.itemPlaces (depth - 1) v.items
  | _, _, _ => []

def Elements.fieldPlaces : ℕ → Elements → List (List UInt8 × RValue) → List Place
  | _, .nil, _ => []
  | depth, .cons key value rest, entries =>
    ⟨key.1, entries.head?.map fun entry => .mkChar entry.1,
        shownAt depth (jsonAppendValueUtf8 false key.1).toOption⟩ ::
      (value.places depth (entries.head?.elim .null Prod.snd) ++
        rest.fieldPlaces depth entries.tail)

/-- The keys of an array are in neither output. -/
def Elements.itemPlaces : ℕ → Elements → List RValue → List Place
  | _, .nil, _ => []
  | depth, .cons _ value rest, values =>
    value.places depth (values.head?.getD .null) ++ rest.itemPlaces depth values.tail

end

abbrev SizedDocument := {es : Elements // (encodeLevel es.encode).length < 2 ^ 31}

def SizedDocument.bson2list (opts : ConvertOptions) (d : SizedDocument) :
    Option (Except String Converted) := Mongolite.bson2list opts (d.1.toBson d.2)

/-- A text of the document is at this place of its list; `BSON_MAX_RECURSION` is 200. -/
def SizedDocument.HasPlace (opts : ConvertOptions) (d : SizedDocument) (p : Place) : Prop :=
  ∃ c, d.bson2list opts = some (.ok c) ∧ p ∈ d.1.fieldPlaces 200 c.value.entries

/-- Unless a conversion signals an error, every text becomes a string of the same characters,
different texts become different strings, and what JSON output shows of them is the same. -/
structure TextsSurvive (native : NativeEncoding) (opts : ConvertOptions)
    (docs : Set SizedDocument) : Prop where
  ends : ∀ d ∈ docs, d.bson2list opts ≠ none
  denotes : ∀ d ∈ docs, ∀ p, d.HasPlace opts p →
    ∃ r cs, p.string = some r ∧ r.chars native = some cs ∧ utf8Chars p.text = some cs
  distinct : ∀ d ∈ docs, ∀ d' ∈ docs, ∀ p p', d.HasPlace opts p → d'.HasPlace opts p' →
    p.text ≠ p'.text → p.string ≠ p'.string
  shown : ∀ d ∈ docs, ∀ p, d.HasPlace opts p → ∀ literal, p.literal = some literal →
    ∃ r cs, p.string = some r ∧ r.chars native = some cs ∧
      shownText literal = some (cs.map Char.toNat)

/-! ## The condition -/

/-- A key, or a string, code or symbol value, and how many levels deep it is nested. -/
structure BsonText where
  isKey : Bool
  bytes : List UInt8
  level : ℕ
  noNul : isKey = true → 0 ∉ bytes

mutual

def BsonValue.texts : ℕ → BsonValue → List BsonText
  | level, .utf8 s | level, .code s | level, .symbol s =>
    [⟨false, s, level, nofun⟩]
  | level, .document es => es.fieldTexts (level + 1)
  | level, .array es => es.itemTexts (level + 1)
  | _, _ => []

def Elements.fieldTexts : ℕ → Elements → List BsonText
  | _, .nil => []
  | level, .cons key value rest =>
    ⟨true, key.1, level, fun _ => key.2⟩ :: (value.texts level ++ rest.fieldTexts level)

def Elements.itemTexts : ℕ → Elements → List BsonText
  | _, .nil => []
  | level, .cons _ value rest => value.texts level ++ rest.itemTexts level

end

def SizedDocument.texts (d : SizedDocument) : List BsonText := d.1.fieldTexts 1

namespace BsonText

/-- A key reads the same in the native encoding as in UTF-8, or a value has no zero byte. -/
def Readable (native : NativeEncoding) (t : BsonText) : Prop :=
  if t.isKey then native.decode t.bytes = utf8Chars t.bytes else 0 ∉ t.bytes

def string (t : BsonText) : RString :=
  if t.isKey then .mkChar t.bytes else .mkCharCE (cString t.bytes) .utf8

def place (t : BsonText) : Place where
  text := t.bytes
  string := some t.string
  literal := shownAt (201 - t.level) (jsonAppendValueUtf8 (!t.isKey) t.bytes).toOption

end BsonText

mutual

theorem BsonValue.places_toR (opts : ConvertOptions) (level : ℕ) :
    ∀ v : BsonValue, v.places (201 - level) (v.toR opts) = (v.texts level).map BsonText.place
  | .utf8 _ | .code _ | .symbol _ => by
    simp only [BsonValue.places, BsonValue.texts, BsonValue.toR]
    rfl
  | .document es => by
    rw [BsonValue.places, BsonValue.toR, BsonValue.texts, Nat.sub_sub]
    exact es.fieldPlaces_toR opts (level + 1)
  | .array es => by
    rw [BsonValue.places, BsonValue.toR, BsonValue.texts, Nat.sub_sub]
    exact es.itemPlaces_toR opts (level + 1)
  | .double _ | .binary _ _ | .undefined | .oid _ | .bool _ | .dateTime _ | .null | .regex _ _
  | .dbPointer _ _ | .codeWScope _ _ | .int32 _ | .timestamp _ | .int64 _ | .decimal128 _
  | .maxKey | .minKey => by
    simp only [BsonValue.places, BsonValue.texts]
    rfl

theorem Elements.fieldPlaces_toR (opts : ConvertOptions) (level : ℕ) :
    ∀ es : Elements,
      es.fieldPlaces (201 - level) (es.toR opts) = (es.fieldTexts level).map BsonText.place
  | .nil => by
    simp only [Elements.fieldPlaces, Elements.fieldTexts]
    rfl
  | .cons key value rest => by
    have hvalue := value.places_toR opts level
    have hrest := rest.fieldPlaces_toR opts level
    simp only [Elements.fieldPlaces, Elements.fieldTexts, Elements.toR, List.head?_cons,
      List.tail_cons, Option.elim_some, hvalue, hrest, List.map_cons, List.map_append]
    rfl

theorem Elements.itemPlaces_toR (opts : ConvertOptions) (level : ℕ) :
    ∀ es : Elements, es.itemPlaces (201 - level) ((es.toR opts).map Prod.snd) =
      (es.itemTexts level).map BsonText.place
  | .nil => by
    simp only [Elements.itemPlaces, Elements.itemTexts]
    rfl
  | .cons key value rest => by
    have hvalue := value.places_toR opts level
    have hrest := rest.itemPlaces_toR opts level
    simp only [Elements.itemPlaces, Elements.itemTexts, Elements.toR, List.map_cons,
      List.head?_cons, List.tail_cons, Option.getD_some, hvalue, hrest, List.map_append]

end

theorem length_encode_string {key value : List Char} (hkey : 0 ∉ utf8Bytes key)
    (h : (utf8Bytes key).length + (utf8Bytes value).length < 2 ^ 30) :
    (encodeLevel (Elements.cons ⟨utf8Bytes key, hkey⟩ (.utf8 (utf8Bytes value)) .nil).encode).length
      < 2 ^ 31 := by
  simp only [Elements.encode, BsonValue.encode, length_encodeLevel, length_encodeText,
    List.length_cons, List.length_append, List.length_nil]
  omega

/-- A document with one string, whose key and value are the UTF-8 of these characters. -/
def stringDocument (key value : List Char) (hkey : 0 ∉ utf8Bytes key)
    (h : (utf8Bytes key).length + (utf8Bytes value).length < 2 ^ 30) : SizedDocument :=
  ⟨.cons ⟨utf8Bytes key, hkey⟩ (.utf8 (utf8Bytes value)) .nil, length_encode_string hkey h⟩

variable {native : NativeEncoding} {opts : ConvertOptions} {docs : Set SizedDocument}
  {d : SizedDocument} {p : Place} {t : BsonText} {cs : List Char}

/-- Every document becomes a list, and the places in it are those of its texts. -/
theorem bson2list_texts (opts : ConvertOptions) (d : SizedDocument) :
    d.bson2list opts ≠ none ∧ ∀ p, d.HasPlace opts p ↔ ∃ t ∈ d.texts, t.place = p := by
  obtain ⟨levels, hrun, -⟩ := bson2list_of_converts ((walks_toBson d.1 d.2).converts opts)
  have hplaces := d.1.fieldPlaces_toR opts 1
  refine ⟨by rw [SizedDocument.bson2list, hrun]; exact Option.some_ne_none _, fun p => ?_⟩
  rw [SizedDocument.texts, ← List.mem_map, ← hplaces]
  constructor
  · rintro ⟨c, hc, hp⟩
    cases hrun.symm.trans hc
    exact hp
  · exact fun hp => ⟨_, hrun, hp⟩

namespace BsonText

theorem chars_string (native : NativeEncoding) (t : BsonText) :
    t.string.chars native =
      if t.isKey then native.decode t.bytes else utf8Chars (cString t.bytes) := by
  rw [string]
  split_ifs
  · rfl
  · exact RString.chars_mkCharCE_utf8 native _

/-- In a session with UTF-8 it is only zero bytes that make a text unreadable. -/
theorem readable_utf8_iff : t.Readable .utf8 ↔ 0 ∉ t.bytes := by
  rw [Readable]
  split_ifs with hkey
  · exact iff_of_true rfl (t.noNul hkey)
  · rfl

theorem readable_latin1_iff (hkey : t.isKey = true) :
    t.Readable .latin1 ↔ ∀ b ∈ t.bytes, b.toNat < 128 := by
  have hbyte (b : UInt8) : (Char.ofNat b.toNat).toNat = b.toNat := by
    have hvalid : b.toNat.isValidChar := .inl (b.toNat_lt.trans (by decide))
    rw [Char.ofNat, dif_pos hvalid]
    rfl
  rw [Readable, if_pos hkey]
  constructor
  · intro heq b hb
    have hbytes := utf8Chars_eq_some_iff.mp heq.symm
    have hascii := (length_utf8Bytes (t.bytes.map fun b => Char.ofNat b.toNat)).2
      (by rw [hbytes, List.length_map]) _ (List.mem_map_of_mem hb)
    rwa [hbyte] at hascii
  · exact fun hascii => (utf8Chars_ascii hascii).symm

theorem chars_eq_iff (h : utf8Chars t.bytes = some cs) :
    t.string.chars native = some cs ↔ t.Readable native := by
  rw [chars_string, Readable, h]
  split_ifs
  · rfl
  · constructor
    · intro hcut hmem
      rw [← eq_of_utf8Chars hcut h] at hmem
      exact not_mem_cString t.bytes hmem
    · intro hmem
      rw [cString_of_not_mem hmem, h]

theorem shownText_literal (h : utf8Chars t.bytes = some cs) :
    (t.level ≤ 200 → ∃ literal, t.place.literal = some literal) ∧ ∀ literal,
      t.place.literal = some literal →
        t.level ≤ 200 ∧ shownText literal = some (cs.map Char.toNat) := by
  have hnul : (!t.isKey) = true ∨ 0 ∉ t.bytes := by
    cases hkey : t.isKey with
    | false => exact .inl rfl
    | true => exact .inr (t.noNul hkey)
  obtain ⟨literal, hliteral, hshown⟩ := shownText_of_utf8Chars h hnul
  rw [place, hliteral, shownAt]
  split_ifs with hlevel
  · exact ⟨fun h => absurd h (by omega), nofun⟩
  · refine ⟨fun _ => ⟨literal, rfl⟩, ?_⟩
    rintro _ ⟨⟩
    exact ⟨by omega, hshown⟩

end BsonText

theorem TextsSurvive.readable (h : TextsSurvive native opts docs) (hd : d ∈ docs) (ht : t ∈ d.texts)
    (hcs : utf8Chars t.bytes = some cs) : t.Readable native := by
  obtain ⟨r, cs', hr, hchars, hcs'⟩ :=
    h.denotes d hd t.place (((bson2list_texts opts d).2 t.place).mpr ⟨t, ht, rfl⟩)
  cases hr
  cases hcs.symm.trans hcs'
  exact (BsonText.chars_eq_iff hcs).mp hchars

/-- Texts survive iff the keys read the same in the native encoding as in UTF-8 and the values have
no zero byte. -/
theorem textsSurvive_iff
    (hvalid : ∀ d ∈ docs, ∀ t ∈ d.texts, ∃ cs, utf8Chars t.bytes = some cs) :
    TextsSurvive native opts docs ↔ ∀ d ∈ docs, ∀ t ∈ d.texts, t.Readable native := by
  have hplaces := bson2list_texts opts
  constructor
  · intro h d hd t ht
    obtain ⟨cs, hcs⟩ := hvalid d hd t ht
    exact h.readable hd ht hcs
  · intro h
    have hdenotes : ∀ d ∈ docs, ∀ p, d.HasPlace opts p →
        ∃ r cs, p.string = some r ∧ r.chars native = some cs ∧ utf8Chars p.text = some cs := by
      intro d hd p hp
      obtain ⟨t, ht, rfl⟩ := ((hplaces d).2 p).mp hp
      obtain ⟨cs, hcs⟩ := hvalid d hd t ht
      exact ⟨t.string, cs, rfl, (BsonText.chars_eq_iff hcs).mpr (h d hd t ht), hcs⟩
    constructor
    · exact fun d _ => (hplaces d).1
    · exact hdenotes
    · intro d hd d' hd' p p' hp hp' hne heq
      obtain ⟨r, cs, hr, hchars, hcs⟩ := hdenotes d hd p hp
      obtain ⟨r', cs', hr', hchars', hcs'⟩ := hdenotes d' hd' p' hp'
      cases hr.symm.trans (heq.trans hr')
      cases hchars.symm.trans hchars'
      exact hne (eq_of_utf8Chars hcs hcs')
    · intro d hd p hp literal hliteral
      obtain ⟨t, ht, rfl⟩ := ((hplaces d).2 p).mp hp
      obtain ⟨cs, hcs⟩ := hvalid d hd t ht
      exact ⟨t.string, cs, rfl, (BsonText.chars_eq_iff hcs).mpr (h d hd t ht),
        ((BsonText.shownText_literal hcs).2 literal hliteral).2⟩

theorem texts_stringDocument {key value : List Char} (hkey : 0 ∉ utf8Bytes key)
    (h : (utf8Bytes key).length + (utf8Bytes value).length < 2 ^ 30) :
    (stringDocument key value hkey h).texts =
      [⟨true, utf8Bytes key, 1, fun _ => hkey⟩, ⟨false, utf8Bytes value, 1, nofun⟩] := by
  simp [stringDocument, SizedDocument.texts, Elements.fieldTexts, BsonValue.texts]

theorem key_mem_stringDocument {key value : List Char} (hkey : 0 ∉ utf8Bytes key)
    (h : (utf8Bytes key).length + (utf8Bytes value).length < 2 ^ 30) :
    (⟨true, utf8Bytes key, 1, fun _ => hkey⟩ : BsonText) ∈
      (stringDocument key value hkey h).texts := by
  rw [texts_stringDocument]
  exact .head _

theorem value_mem_stringDocument {key value : List Char} (hkey : 0 ∉ utf8Bytes key)
    (h : (utf8Bytes key).length + (utf8Bytes value).length < 2 ^ 30) :
    (⟨false, utf8Bytes value, 1, nofun⟩ : BsonText) ∈ (stringDocument key value hkey h).texts := by
  rw [texts_stringDocument]
  exact .tail _ (.head _)

theorem textsSurvive_latin1 :
    TextsSurvive .latin1 ⟨false, false⟩ {stringDocument ['a'] ['é'] (by decide) (by decide)} := by
  refine (textsSurvive_iff ?_).mpr ?_
  · rintro d rfl
    rw [texts_stringDocument, List.forall_mem_cons, List.forall_mem_singleton]
    exact ⟨⟨_, utf8Chars_utf8Bytes _⟩, ⟨_, utf8Chars_utf8Bytes _⟩⟩
  · rintro d rfl
    rw [texts_stringDocument, List.forall_mem_cons, List.forall_mem_singleton]
    constructor
    · exact (BsonText.readable_latin1_iff rfl).mpr (by decide +kernel)
    · exact show 0 ∉ utf8Bytes ['é'] by decide +kernel

/-- A value is cut at a zero byte, and a key is misread in Latin-1. -/
theorem not_textsSurvive :
    ¬ TextsSurvive .utf8 ⟨false, false⟩
        {stringDocument ['a'] ['a', '\x00', 'b'] (by decide) (by decide)} ∧
      ¬ TextsSurvive .latin1 ⟨false, false⟩
        {stringDocument ['é'] ['a'] (by decide) (by decide)} := by
  constructor
  · intro h
    have hvalue := h.readable rfl (value_mem_stringDocument _ _) (utf8Chars_utf8Bytes _)
    have hzero := BsonText.readable_utf8_iff.mp hvalue
    exact absurd hzero (by decide +kernel)
  · intro h
    have hkey := h.readable rfl (key_mem_stringDocument _ _) (utf8Chars_utf8Bytes _)
    have hascii := (BsonText.readable_latin1_iff rfl).mp hkey
    exact absurd hascii (by decide +kernel)

end Mongolite
