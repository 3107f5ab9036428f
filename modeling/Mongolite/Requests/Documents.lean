import Mongolite.Bson.Grammar
import Mongolite.Library.LittleEndian
import Mongolite.Library.Utf8
import Mongolite.Requests.Encoding

/-! # Documents made of JSON

`bson_new_from_json` follows a text from left to right and appends each field to
the document as it reads it. What it makes of a value is left open but for
strings, `$oid` and the number one.
-/

namespace Mongolite

open Json

variable {β : Type}

def stackMax : ℕ := 100

/-- `jsonsl_util_unescape`; `lead` is the half of a pair that waits for the other one, which need
not be the next character. -/
def jsonslUtilUnescape (lead : Option ℕ) : List ℕ → Option (List Char)
  | [] => if lead.isSome then none else some []
  | u :: us =>
    if 0xD800 ≤ u ∧ u < 0xDC00 then
      if lead.isSome then none else jsonslUtilUnescape (some u) us
    else if 0xDC00 ≤ u ∧ u < 0xE000 then
      lead.bind fun w => (jsonslUtilUnescape none us).map
        (Char.ofNat (0x10000 + w % 1024 * 1024 + u % 1024) :: ·)
    else if u.isValidChar then (jsonslUtilUnescape lead us).map (Char.ofNat u :: ·)
    else none

theorem unescape_codePoints (s : String) :
    jsonslUtilUnescape none (codePoints s) = some s.toList := by
  unfold codePoints
  generalize s.toList = cs
  induction cs with
  | nil => rfl
  | cons c cs ih =>
    have hvalid : c.toNat.isValidChar := c.valid
    rw [List.map_cons, jsonslUtilUnescape, if_neg ?_, if_neg ?_, if_pos hvalid, ih,
      Char.ofNat_toNat]
    · rfl
    · rcases hvalid with h | h <;> omega
    · rcases hvalid with h | h <;> omega

/-! ## Values in place -/

abbrev BsonFields (β : Type) := List (List ℕ × β)

/-- What the driver's JSON reader makes of a scalar, of an object in the notation of extended JSON,
and of the values of an embedded document or an array. No object becomes a string. Some texts are
refused for the way in which they spell a string. -/
structure BsonJsonReader (β : Type) where
  accepts : String → Bool
  ofScalar : Json → Except String β
  ofExtended : List (List ℕ × Json) → Except String β
  document : BsonFields β → β
  array : List β → β
  string_ne_document : ∀ s b fields, ofScalar (.string s) = .ok b → document fields ≠ b
  string_ne_extended : ∀ s b ms, ofScalar (.string s) = .ok b → ofExtended ms ≠ .ok b

/-- `BSON_PRIVATE_SPECIAL_KEYS_XMACRO` -/
def specialKeys : List String :=
  ["$binary", "$code", "$date", "$dbPointer", "$maxKey", "$minKey", "$numberDecimal",
    "$numberDouble", "$numberInt", "$numberLong", "$oid", "$options", "$regex",
    "$regularExpression", "$scope", "$symbol", "$timestamp", "$type", "$undefined", "$uuid"]

/-- The first key of an object in a subdocument tells whether it is extended JSON. -/
def opensExtended (members : List (List ℕ × Json)) : Bool :=
  members.head?.any fun m => specialKeys.any fun key => codePoints key == m.1

namespace BsonJsonReader

def ofValues : BsonJsonReader Json where
  accepts _ := true
  ofScalar v := .ok v
  ofExtended ms := .ok (.object ms)
  document := .object
  array := .array
  string_ne_document s b fields h := by
    cases h
    exact fun h => by cases h
  string_ne_extended s b ms h := by
    cases h
    exact fun h => by cases h

mutual

def value (r : BsonJsonReader β) : Json → Except String β
  | .array values => (r.elements values).map r.array
  | .object members =>
    if opensExtended members then r.ofExtended members else (r.members members).map r.document
  | v => r.ofScalar v

def elements (r : BsonJsonReader β) : List Json → Except String (List β)
  | [] => .ok []
  | v :: vs =>
    match r.value v with
    | .error e => .error e
    | .ok b => (r.elements vs).map (b :: ·)

def members (r : BsonJsonReader β) : List (List ℕ × Json) → Except String (BsonFields β)
  | [] => .ok []
  | (key, v) :: ms =>
    if (jsonslUtilUnescape none key).isNone then .error "INVALID_CODEPOINT"
    else if 0 ∈ key then .error "invalid bytes in UTF8 string"
    else
      match r.value v with
      | .error e => .error e
      | .ok b => (r.members ms).map ((key, b) :: ·)

end

/-- `bson_new_from_json`; no key is special at the top. -/
def bsonNewFromJson (r : BsonJsonReader β) (x : String) : Except String (BsonFields β) :=
  match parse x.toList with
  | none => .error "Got parse error"
  | some v =>
    if stackMax ≤ v.levels then .error "LEVELS_EXCEEDED"
    else if ¬ r.accepts x then .error "INVALID_CODEPOINT"
    else
      match v with
      | .object members => r.members members
      | .array values =>
        (r.elements values).map fun bs => bs.zipIdx.map fun b => (codePoints (toString b.2), b.1)
      | _ => .error "Incomplete JSON"

variable {r : BsonJsonReader β} {k : List ℕ} {v : Json} {ms ms' : List (List ℕ × Json)}
  {fields : BsonFields β}

theorem members_cons (h : r.members ((k, v) :: ms) = .ok fields) :
    (jsonslUtilUnescape none k).isSome ∧ ∃ b rest, r.value v = .ok b ∧ r.members ms = .ok rest ∧
      fields = (k, b) :: rest := by
  rw [members] at h
  split_ifs at h with hkey hnul
  cases hv : r.value v with
  | error e => simp [hv] at h
  | ok b =>
    cases hms : r.members ms with
    | error e => simp [hv, hms, Except.map] at h
    | ok rest =>
      simp only [hv, hms, Except.map, Except.ok.injEq] at h
      exact ⟨Option.isSome_iff_ne_none.mpr (by simpa using hkey), b, rest, rfl, rfl, h.symm⟩

theorem members_append (h : r.members (ms ++ ms') = .ok fields) :
    ∃ d d', r.members ms = .ok d ∧ r.members ms' = .ok d' ∧ fields = d ++ d' := by
  induction ms generalizing fields with
  | nil => exact ⟨[], fields, by rw [members], h, rfl⟩
  | cons m ms ih =>
    obtain ⟨k, v⟩ := m
    obtain ⟨-, b, rest, hv, hrest, rfl⟩ := members_cons h
    obtain ⟨d, d', hd, hd', rfl⟩ := ih hrest
    refine ⟨(k, b) :: d, d', ?_, hd', rfl⟩
    rw [List.cons_append, members] at h
    rw [members]
    split_ifs at h ⊢
    rw [hv, hd]
    rfl

end BsonJsonReader

/-! ## Fields in order -/

abbrev DocumentFields := List (String × BsonValue)

/-- The fields that a value makes. A symbol is appended whenever its text is read, and any other
value when it ends. -/
def fieldCount : Json → ℕ
  | .object members =>
    if members.head?.any fun m => m.1 == codePoints "$symbol" then members.length else 1
  | _ => 1

def bsonOidParseHexChar (c : UInt8) : ℕ := (hexValue (Char.ofNat c.toNat)).getD 0

def bsonOidInitFromString (s : List UInt8) : Bytes 12 :=
  ⟨(List.range 12).map fun i => UInt8.ofNat
    (16 * bsonOidParseHexChar (s.getD (2 * i) 0) + bsonOidParseHexChar (s.getD (2 * i + 1) 0)),
    by rw [List.length_map, List.length_range]⟩

/-- `bson_new_from_json` of texts that stand for an object or an array, as long as the document is
below two gigabytes. At the top no key is special, so members follow each other without a trace but
for the options of a regular expression, which one of the older notation takes from the one before
it if it has none. -/
structure DocumentReader where
  accepts : String → Bool
  ofObject : List (List ℕ × Json) → Except String DocumentFields
  ofArray : List Json → Except String DocumentFields
  levels_lt : ∀ x v, accepts x → parse x.toList = some v → v.levels < stackMax
  accepts_one : ∀ x key, parse x.toList = some (.object [(codePoints key, .number ['1'])]) →
    '\x00' ∉ key.toList → accepts x
  ofObject_nil : ofObject [] = .ok []
  ofObject_concat : ∀ ms k v d, k ≠ [] → ofObject (ms ++ [(k, v)]) = .ok d →
    ∃ d' key, ∃ values : List BsonValue, ofObject ms = .ok d' ∧
      jsonslUtilUnescape none k = some key ∧
      values.length = fieldCount v ∧ d = d' ++ values.map fun b => (String.ofList key, b)
  ofObject_concat_scalar : ∀ ms k v d, v.isScalar → ofObject (ms ++ [(k, v)]) = .ok d →
    ∃ d' f, ofObject ms = .ok d' ∧ ofObject [(k, v)] = .ok [f] ∧ d = d' ++ [f]
  ofObject_cons_scalar : ∀ k v ms d, v.isScalar → ofObject ((k, v) :: ms) = .ok d →
    ∃ f d', ofObject [(k, v)] = .ok [f] ∧ ofObject ms = .ok d' ∧ d = f :: d'
  ofObject_string : ∀ k s d, ofObject [(k, .string s)] = .ok d →
    ∃ key text, jsonslUtilUnescape none k = some key ∧ jsonslUtilUnescape none s = some text ∧
      d = [(String.ofList key, .utf8 (utf8Bytes text))]
  ofObject_oid : ∀ k s d, ofObject [(k, .object [(codePoints "$oid", .string s)])] = .ok d →
    ∃ key text, jsonslUtilUnescape none k = some key ∧ jsonslUtilUnescape none s = some text ∧
      d = [(String.ofList key, .oid (bsonOidInitFromString (utf8Bytes text)))]
  ofObject_one : ∀ key : String, '\x00' ∉ key.toList →
    ofObject [(codePoints key, .number ['1'])] = .ok [(key, .ofInt32 1)]

namespace DocumentReader

def bsonNewFromJson (r : DocumentReader) (x : String) : Except String DocumentFields :=
  if r.accepts x then
    match parse x.toList with
    | some (.object members) => r.ofObject members
    | some (.array values) => r.ofArray values
    | _ => .error "Incomplete JSON"
  else .error "Got parse error"

theorem exists_parse {r : DocumentReader} {x : String} {d : DocumentFields}
    (h : r.bsonNewFromJson x = .ok d) : ∃ v, parse x.toList = some v ∧ v.levels < stackMax := by
  unfold bsonNewFromJson at h
  split_ifs at h with haccepts
  cases hv : parse x.toList with
  | none =>
    rw [hv] at h
    cases h
  | some v => exact ⟨v, rfl, r.levels_lt x v haccepts hv⟩

theorem read_one {r : DocumentReader} {x key : String}
    (hparse : parse x.toList = some (.object [(codePoints key, .number ['1'])]))
    (hkey : '\x00' ∉ key.toList) : r.bsonNewFromJson x = .ok [(key, .ofInt32 1)] := by
  rw [bsonNewFromJson, if_pos (r.accepts_one x key hparse hkey), hparse]
  exact r.ofObject_one key hkey

section InPlace

variable {v : BsonJsonReader BsonValue} {ms : List (List ℕ × Json)} {fields : BsonFields BsonValue}

def named (fields : BsonFields BsonValue) : DocumentFields :=
  fields.map fun f => (String.ofList ((jsonslUtilUnescape none f.1).getD []), f.2)

theorem named_of_members {k : List ℕ} {x : Json} {d : DocumentFields}
    (h : (v.members [(k, x)]).map named = .ok d) :
    ∃ key b, jsonslUtilUnescape none k = some key ∧ v.value x = .ok b ∧
      d = [(String.ofList key, b)] := by
  cases hd : v.members [(k, x)] with
  | error e => simp [hd, Except.map] at h
  | ok fields =>
    obtain ⟨hkey, b, rest, hb, hrest, rfl⟩ := BsonJsonReader.members_cons hd
    obtain ⟨key, hkey⟩ := Option.isSome_iff_exists.mp hkey
    rw [BsonJsonReader.members, Except.ok.injEq] at hrest
    subst hrest
    simp only [hd, Except.map, Except.ok.injEq] at h
    exact ⟨key, b, hkey, hb, by rw [← h, named, List.map_singleton, hkey, Option.getD_some]⟩

theorem named_append (ms : List (List ℕ × Json)) {ms' : List (List ℕ × Json)} {d : DocumentFields}
    (h : (v.members (ms ++ ms')).map named = .ok d) :
    ∃ d₁ d₂, (v.members ms).map named = .ok d₁ ∧ (v.members ms').map named = .ok d₂ ∧
      d = d₁ ++ d₂ := by
  cases hd : v.members (ms ++ ms') with
  | error e => simp [hd, Except.map] at h
  | ok fields =>
    obtain ⟨d₁, d₂, h₁, h₂, rfl⟩ := BsonJsonReader.members_append hd
    simp only [hd, Except.map, Except.ok.injEq] at h
    refine ⟨named d₁, named d₂, ?_, ?_, ?_⟩
    · rw [h₁, Except.map]
    · rw [h₂, Except.map]
    · rw [← h, named, List.map_append, named, named]

/-- Only an object of one symbol or more makes other than one field. -/
theorem fieldCount_of_value {x : Json} {b : BsonValue} (hb : v.value x = .ok b)
    (hextended : ∀ ms b, v.ofExtended ms = .ok b → fieldCount (.object ms) = 1) :
    fieldCount x = 1 := by
  cases x with
  | object ms =>
    by_cases hopens : opensExtended ms = true
    · rw [BsonJsonReader.value, if_pos hopens] at hb
      exact hextended ms b hb
    · rw [fieldCount, if_neg]
      intro hsymbol
      refine hopens ?_
      cases ms with
      | nil => cases hsymbol
      | cons m ms =>
        refine List.any_eq_true.mpr ⟨"$symbol", by decide, ?_⟩
        rw [beq_iff_eq]
        exact (beq_iff_eq.mp hsymbol).symm
  | null | bool | number | string | array => rfl

end InPlace

/-- A reader that makes each value by itself. -/
def inPlace (v : BsonJsonReader BsonValue)
    (hstring : ∀ s b, v.ofScalar (.string s) = .ok b →
      ∃ text, jsonslUtilUnescape none s = some text ∧ b = .utf8 (utf8Bytes text))
    (hone : v.ofScalar (.number ['1']) = .ok (.ofInt32 1))
    (hoid : ∀ s b, v.ofExtended [(codePoints "$oid", .string s)] = .ok b →
      ∃ text, jsonslUtilUnescape none s = some text ∧
        b = .oid (bsonOidInitFromString (utf8Bytes text)))
    (hextended : ∀ ms b, v.ofExtended ms = .ok b → fieldCount (.object ms) = 1) :
    DocumentReader where
  accepts x := (parse x.toList).any fun v => v.levels < stackMax
  ofObject ms := (v.members ms).map named
  ofArray values := (v.elements values).map fun bs =>
    bs.zipIdx.map fun b => (toString b.2, b.1)
  levels_lt x v h hv := by
    rw [hv] at h
    exact of_decide_eq_true h
  accepts_one x key h _ := by
    rw [h]
    rfl
  ofObject_nil := rfl
  ofObject_concat ms k x d _ h := by
    obtain ⟨d₁, d₂, h₁, h₂, rfl⟩ := named_append ms h
    obtain ⟨key, b, hkey, hb, rfl⟩ := named_of_members h₂
    exact ⟨d₁, key, [b], h₁, hkey, (fieldCount_of_value hb hextended).symm, rfl⟩
  ofObject_concat_scalar ms k x d _ h := by
    obtain ⟨d₁, d₂, h₁, h₂, rfl⟩ := named_append ms h
    obtain ⟨key, b, -, -, rfl⟩ := named_of_members h₂
    exact ⟨d₁, _, h₁, h₂, rfl⟩
  ofObject_cons_scalar k x ms d _ h := by
    obtain ⟨d₁, d₂, h₁, h₂, rfl⟩ := named_append [(k, x)] h
    obtain ⟨key, b, -, -, rfl⟩ := named_of_members h₁
    exact ⟨_, d₂, h₁, h₂, rfl⟩
  ofObject_string k s d h := by
    obtain ⟨key, b, hkey, hb, rfl⟩ := named_of_members h
    obtain ⟨text, htext, rfl⟩ := hstring s b hb
    exact ⟨key, text, hkey, htext, rfl⟩
  ofObject_oid k s d h := by
    obtain ⟨key, b, hkey, hb, rfl⟩ := named_of_members h
    obtain ⟨text, htext, rfl⟩ := hoid s b hb
    exact ⟨key, text, hkey, htext, rfl⟩
  ofObject_one key hkey := by
    have hnul : 0 ∉ codePoints key := by
      intro hmem
      obtain ⟨c, hc, hzero⟩ := List.mem_map.mp hmem
      obtain rfl : c = '\x00' := Char.toNat_inj.mp hzero
      exact hkey hc
    have hvalue : v.value (.number ['1']) = .ok (.ofInt32 1) := hone
    rw [BsonJsonReader.members, unescape_codePoints, if_neg (by simp), if_neg hnul, hvalue,
      BsonJsonReader.members]
    simp only [Except.map, named, List.map_singleton, unescape_codePoints, Option.getD_some,
      String.ofList_toList]

def elementsOf (fields : DocumentFields) : Elements :=
  fields.foldr (fun f es => .cons (.ofBytes (utf8Bytes f.1.toList)) f.2 es) .nil

/-- Strings, words, whole numbers of 31 bits and objects, of which `$oid` alone is special. -/
def objectIdValues : BsonJsonReader BsonValue where
  accepts _ := true
  ofScalar
    | .null => .ok .null
    | .bool b => .ok (.bool b)
    | .number literal =>
      let n := literal.foldl (fun n c => 10 * n + (c.toNat - '0'.toNat)) 0
      if literal.all Char.isDigit ∧ n < 2 ^ 31 then .ok (.ofInt32 n)
      else .error "Number is out of range"
    | .string s =>
      match jsonslUtilUnescape none s with
      | none => .error "INVALID_CODEPOINT"
      | some text => .ok (.utf8 (utf8Bytes text))
    | _ => .error "Invalid read"
  ofExtended
    | [(key, .string s)] =>
      match jsonslUtilUnescape none s with
      | none => .error "INVALID_CODEPOINT"
      | some text =>
        if key = codePoints "$oid" ∧ (utf8Bytes text).length = 24 then
          .ok (.oid (bsonOidInitFromString (utf8Bytes text)))
        else .error "Invalid input string"
    | _ => .error "Invalid key"
  document fields := .document (elementsOf (named fields))
  array bs := .array (elementsOf (bs.zipIdx.map fun b => (toString b.2, b.1)))
  string_ne_document s b fields h := by
    dsimp only at h
    split at h
    · cases h
    · cases h
      exact fun h => by cases h
  string_ne_extended s b ms h h' := by
    dsimp only at h h'
    split at h
    · cases h
    · cases h
      split at h'
      · split at h'
        · cases h'
        · split_ifs at h'
          cases h'
      · cases h'

/-- A reader of documents that knows no types but these. -/
def ofObjectIds : DocumentReader :=
  inPlace objectIdValues
    (by
      intro s b h
      simp only [objectIdValues] at h
      split at h
      · cases h
      · cases h
        exact ⟨_, ‹_›, rfl⟩)
    rfl
    (by
      intro s b h
      simp only [objectIdValues] at h
      split at h
      · cases h
      · split_ifs at h
        cases h
        exact ⟨_, ‹_›, rfl⟩)
    (by
      intro ms b h
      simp only [objectIdValues] at h
      split at h
      · rw [fieldCount]
        split_ifs <;> rfl
      · cases h)

end DocumentReader

end Mongolite
