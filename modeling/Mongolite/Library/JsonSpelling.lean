import Mathlib.Data.List.DropRight
import Mongolite.Library.JsonTexts

/-! # Texts with spaces in them

The texts of arrays and objects with a space inside each bracket, after each
comma and around each colon. They stand for what their parts stand for, wherever
they stand in a larger text.
-/

namespace Mongolite.Json

variable {α : Type} {item : Reader α} {close : Char} {text key value cs t : List Char}
  {items : List (List Char)} {xs : List α} {s : List ℕ} {v : Json} {n : ℕ}

/-- A text is taken as this value from the front of any text that does not go on with a word. -/
def Spells (text : List Char) (v : Json) : Prop :=
  ∀ ⦃n : ℕ⦄ ⦃t : List Char⦄, text.length ≤ n → Stops t → readValue n (text ++ t) = some (v, t)

theorem spells_of_readValue (h : readValue n text = some (v, [])) : Spells text v := by
  intro m t hm ht
  exact isLocal_readValue m ht (readValue_follows n m hm h)

theorem parse_of_spells (h : Spells text v) : parse text = some v := by
  have hread := h (t := []) (Nat.le_refl _) (fun _ hc => absurd hc (by simp))
  rw [List.append_nil] at hread
  exact parse_iff.mpr ⟨_, [], hread, rfl⟩

theorem spells_literal (h : IsLiteral text s) : Spells text (.string s) := by
  obtain ⟨raw, rfl, hraw⟩ := h
  have hread := readString_of_body hraw []
  exact spells_of_readValue (n := 1) (readValue_iff.mpr ⟨'"', _, rfl, .inl ⟨rfl, _, hread, rfl⟩⟩)

def quoted (cs : List Char) : List Char := '"' :: (cs ++ ['"'])

theorem spells_quoted {raw : List Char} (h : StringBody raw s) : Spells (quoted raw) (.string s) :=
  spells_literal ⟨raw, rfl, h⟩

theorem not_isTokenChar_of_mem {c : Char} (h : c ∈ [' ', '\t', '\n', '\r', '"', '[', '\x7b']) :
    isTokenChar c = false := by
  have hall : [' ', '\t', '\n', '\r', '"', '[', '\x7b'].all (fun c => !isTokenChar c) := by decide
  simpa using List.all_eq_true.mp hall c h

theorem spells_token (htoken : ∀ c ∈ text, isTokenChar c = true) (h : ofToken text = some v) :
    Spells text v := by
  have htake : text.takeWhile isTokenChar = text := List.takeWhile_eq_self_iff.mpr htoken
  have hdrop : text.dropWhile isTokenChar = [] := List.dropWhile_eq_nil_iff.mpr htoken
  cases text with
  | nil => cases h
  | cons c text =>
    have hc := htoken c List.mem_cons_self
    have hne (k : Char) (hk : k ∈ [' ', '\t', '\n', '\r', '"', '[', '\x7b']) : c ≠ k := by
      rintro rfl
      exact Bool.noConfusion (hc.symm.trans (not_isTokenChar_of_mem hk))
    have hspace : isJsonSpace c = false := by
      simp [isJsonSpace, hne ' ' (by decide), hne '\t' (by decide), hne '\n' (by decide),
        hne '\r' (by decide)]
    have hskip : skipSpace (c :: text) = c :: text :=
      List.dropWhile_cons_of_neg (by rw [hspace]; exact Bool.false_ne_true)
    have hread : readToken (c :: text) = some (v, []) := by
      rw [readToken, htake, hdrop, h, Option.map_some]
    exact spells_of_readValue (n := 1) (readValue_iff.mpr ⟨c, text, hskip, .inr (.inr (.inr
      ⟨hne '"' (by decide), hne '[' (by decide), hne '\x7b' (by decide), hread⟩))⟩)

theorem spells_word (htoken : text.all isTokenChar = true) (h : ofToken text = some v) :
    Spells text v := spells_token (List.all_eq_true.mp htoken) h

/-! ## Containers -/

def joined : List (List Char) → List Char
  | [] => []
  | [item] => item
  | item :: items => item ++ ',' :: ' ' :: joined items

/-- Texts with a comma and a space before each one but the first, or before each one. -/
def separated : Bool → List (List Char) → List Char
  | _, [] => []
  | notFirst, item :: items =>
    (if notFirst then [',', ' '] else []) ++ (item ++ separated true items)

def bracketed (opening close : Char) (items : List (List Char)) : List Char :=
  if items = [] then [opening, ' ', close]
  else opening :: ' ' :: (joined items ++ [' ', close])

def spacedMember (key value : List Char) : List Char := key ++ ' ' :: ':' :: ' ' :: value

def spacedArray (items : List (List Char)) : List Char := bracketed '[' ']' items

def spacedObject (members : List (List Char)) : List Char := bracketed '\x7b' '\x7d' members

theorem joined_eq_separated (items : List (List Char)) : joined items = separated false items := by
  induction items with
  | nil => rfl
  | cons item items ih =>
    cases items with
    | nil => simp [joined, separated]
    | cons item' items =>
      simp [joined, ih, separated]

/-- A reader that passes over white space and takes nothing from a closing bracket. -/
structure IsItem (item : Reader α) (close : Char) : Prop where
  consumes : Consumes item
  passesSpace : ∀ cs, item (skipSpace cs) = item cs
  rejects : ∀ rest, item (close :: rest) = none

theorem skipSpace_skipSpace (cs : List Char) : skipSpace (skipSpace cs) = skipSpace cs :=
  List.dropWhile_idempotent _ _

theorem isItem_readValue (n : ℕ) : IsItem (readValue n) ']' where
  consumes := consumes_readValue n
  passesSpace cs := by
    cases n with
    | zero => rfl
    | succ n => simp only [readValue, skipSpace_skipSpace]
  rejects rest := by
    cases n with
    | zero => rfl
    | succ n => rfl

theorem isItem_readMember (n : ℕ) : IsItem (readMember (readValue n)) '\x7d' where
  consumes := consumes_readMember (consumes_readValue n)
  passesSpace cs := by simp only [readMember, skipSpace_skipSpace]
  rejects _ := rfl

/-- A reader takes this from the front of a text, whatever follows. -/
def Takes (item : Reader α) (text : List Char) (a : α) : Prop :=
  ∀ ⦃t⦄, Stops t → item (text ++ t) = some (a, t)

theorem IsItem.space (h : IsItem item close) (cs : List Char) : item (' ' :: cs) = item cs := by
  rw [← h.passesSpace (' ' :: cs), ← h.passesSpace cs]
  rfl

theorem IsItem.readItems_skipSpace (h : IsItem item close) (n : ℕ) (cs : List Char) :
    readItems item close n (skipSpace cs) = readItems item close n cs := by
  cases n with
  | zero => rfl
  | succ n => rw [readItems, readItems, h.passesSpace]

theorem readItems_joined (hitem : IsItem item close) (hclose : close ≠ ',')
    (hspace : isJsonSpace close = false) (h : List.Forall₂ (Takes item) items xs)
    (hne : items ≠ []) (t : List Char) :
    readItems item close items.length (joined items ++ ' ' :: close :: t) = some (xs, t) := by
  induction h with
  | nil => exact absurd rfl hne
  | @cons text x items xs hx hxs ih =>
    cases items with
    | nil =>
      cases hxs
      have hskip : skipSpace (' ' :: close :: t) = close :: t := by
        rw [skipSpace, List.dropWhile_cons_of_pos (by decide), List.dropWhile_cons_of_neg]
        rw [hspace]
        exact Bool.false_ne_true
      exact readItems_iff.mpr ⟨_, close, t, hx (stops_cons (by decide) _), hskip,
        .inr ⟨hclose, rfl, rfl⟩⟩
    | cons text' items =>
      have htext : joined (text :: text' :: items) ++ ' ' :: close :: t =
          text ++ ',' :: ' ' :: (joined (text' :: items) ++ ' ' :: close :: t) := by
        simp [joined]
      have hrest := ih (List.cons_ne_nil _ _)
      have hspaced : readItems item close (text' :: items).length
          (' ' :: (joined (text' :: items) ++ ' ' :: close :: t)) = some (xs, t) := by
        rw [← hrest, ← hitem.readItems_skipSpace, ← hitem.readItems_skipSpace _ (joined _ ++ _)]
        rfl
      rw [htext]
      exact readItems_iff.mpr ⟨_, ',', _, hx (stops_cons (by decide) _), rfl,
        .inl ⟨rfl, _, hspaced, rfl⟩⟩

theorem readList_bracketed (opening : Char) (hitem : IsItem item close) (hclose : close ≠ ',')
    (hspace : isJsonSpace close = false) (h : List.Forall₂ (Takes item) items xs)
    (t : List Char) :
    ∃ cs, bracketed opening close items ++ t = opening :: cs ∧
      readList item close cs = some (xs, t) := by
  have hskip (rest : List Char) : skipSpace (close :: rest) = close :: rest :=
    List.dropWhile_cons_of_neg (by rw [hspace]; exact Bool.false_ne_true)
  by_cases hne : items = []
  · subst hne
    cases h
    refine ⟨' ' :: close :: t, rfl, readList_iff.mpr ⟨close, t, hskip t, .inl ⟨rfl, rfl⟩⟩⟩
  · have hitems := readItems_joined hitem hclose hspace h hne t
    refine ⟨' ' :: (joined items ++ ' ' :: close :: t), by simp [bracketed, hne], ?_⟩
    rw [← hitem.readItems_skipSpace] at hitems
    cases hs : skipSpace (joined items ++ ' ' :: close :: t) with
    | nil =>
      obtain ⟨m, hm⟩ := Nat.exists_eq_succ_of_ne_zero (mt List.length_eq_zero_iff.mp hne)
      rw [hs, hm] at hitems
      obtain ⟨x, -, -, hx, -⟩ := readItems_iff.mp hitems
      exact absurd (hitem.consumes hx) (Nat.not_lt_zero _)
    | cons c rest =>
      rw [hs] at hitems
      refine readList_iff.mpr ⟨c, rest, hs, .inr ⟨?_, ?_⟩⟩
      · rintro rfl
        obtain ⟨m, hm⟩ := Nat.exists_eq_succ_of_ne_zero (mt List.length_eq_zero_iff.mp hne)
        rw [hm] at hitems
        obtain ⟨x, -, -, hx, -⟩ := readItems_iff.mp hitems
        rw [hitem.rejects] at hx
        cases hx
      · exact readItems_follows hitem.consumes (fun _ _ _ hr => hr) hitems (Nat.le_refl _)

/-! ## Arrays and objects -/

theorem length_le_joined (h : text ∈ items) : text.length ≤ (joined items).length := by
  induction items with
  | nil => exact absurd h List.not_mem_nil
  | cons item items ih =>
    cases items with
    | nil =>
      obtain rfl := List.mem_singleton.mp h
      exact Nat.le_refl _
    | cons item' items =>
      simp only [joined, List.length_append, List.length_cons]
      rcases List.mem_cons.mp h with rfl | h
      · omega
      · have hle := ih h
        omega

theorem forall₂_takes {R : List Char → α → Prop} (h : List.Forall₂ R items xs)
    (htakes : ∀ text ∈ items, ∀ x, R text x → Takes item text x) :
    List.Forall₂ (Takes item) items xs := by
  induction h with
  | nil => exact .nil
  | cons hx hxs ih =>
    rw [List.forall_mem_cons] at htakes
    exact .cons (htakes.1 _ hx) (ih htakes.2)

theorem spells_spacedArray {vs : List Json} (h : List.Forall₂ Spells items vs) :
    Spells (spacedArray items) (.array vs) := by
  have htakes : List.Forall₂ (Takes (readValue (joined items).length)) items vs :=
    forall₂_takes h fun text hmem v hv t ht => hv (length_le_joined hmem) ht
  obtain ⟨cs, htext, hread⟩ := readList_bracketed '[' (isItem_readValue _) (by decide)
    (by decide) htakes []
  rw [List.append_nil] at htext
  refine spells_of_readValue (n := (joined items).length + 1) (readValue_iff.mpr ?_)
  exact ⟨'[', cs, by rw [spacedArray, htext]; rfl, .inr (.inl ⟨rfl, _, hread, rfl⟩)⟩

def SpellsMember (text : List Char) (m : List ℕ × Json) : Prop :=
  ∃ key value, text = spacedMember key value ∧ IsLiteral key m.1 ∧ Spells value m.2

theorem takes_member {m : List ℕ × Json} (h : SpellsMember text m) (hn : text.length ≤ n) :
    Takes (readMember (readValue n)) text m := by
  obtain ⟨key, value, rfl, ⟨raw, rfl, hraw⟩, hvalue⟩ := h
  intro t ht
  have hname := readString_of_body hraw (' ' :: ':' :: ' ' :: (value ++ t))
  have hlength : value.length ≤ n := by
    refine Nat.le_trans ?_ hn
    simp only [spacedMember, List.length_append, List.length_cons]
    omega
  have hread : readValue n (' ' :: (value ++ t)) = some (m.2, t) := by
    rw [readValue_space]
    exact hvalue hlength ht
  refine readMember_iff.mpr ⟨_, _, _, _, ?_, hname, rfl, hread, rfl⟩
  simp only [spacedMember, List.cons_append, List.append_assoc]
  rfl

theorem spells_spacedObject {ms : List (List ℕ × Json)} (h : List.Forall₂ SpellsMember items ms) :
    Spells (spacedObject items) (.object ms) := by
  have htakes : List.Forall₂ (Takes (readMember (readValue (joined items).length))) items ms :=
    forall₂_takes h fun text hmem m hm => takes_member hm (length_le_joined hmem)
  obtain ⟨cs, htext, hread⟩ := readList_bracketed '\x7b' (isItem_readMember _)
    (by decide) (by decide) htakes []
  rw [List.append_nil] at htext
  refine spells_of_readValue (n := (joined items).length + 1) (readValue_iff.mpr ?_)
  exact ⟨'\x7b', cs, by rw [spacedObject, htext]; rfl, .inr (.inr (.inl ⟨rfl, _, hread, rfl⟩))⟩

/-! ## Members with plain names -/

def isPlainChar (c : Char) : Bool := c ≠ '"' ∧ c ≠ '\\' ∧ 32 ≤ c.toNat

def isPlain (cs : List Char) : Bool := cs.all isPlainChar

theorem isPlain_cons (c : Char) (cs : List Char) :
    isPlain (c :: cs) = (isPlainChar c && isPlain cs) := rfl

theorem isPlain_append (cs cs' : List Char) : isPlain (cs ++ cs') = (isPlain cs && isPlain cs') :=
  List.all_append

theorem isPlain_of_mem (h : ∀ c ∈ cs, isPlainChar c = true) : isPlain cs = true :=
  List.all_eq_true.mpr h

theorem isPlainChar_of_isDigit {c : Char} (h : c.isDigit = true) : isPlainChar c = true := by
  have hbounds : 48 ≤ c.toNat ∧ c.toNat ≤ 57 := by
    rwa [Char.isDigit, Bool.and_eq_true, decide_eq_true_eq, decide_eq_true_eq,
      ge_iff_le, UInt32.le_iff_toNat_le, UInt32.le_iff_toNat_le] at h
  have hne (k : Char) (hk : k.toNat < 48 ∨ 57 < k.toNat) : c ≠ k := by
    rintro rfl
    omega
  exact decide_eq_true ⟨hne '"' (by decide), hne '\\' (by decide), by omega⟩

def jsonString (cs : List Char) : Json := .string (cs.map Char.toNat)

def jsonObject (members : List (String × Json)) : Json :=
  .object (members.map fun m => (m.1.toList.map Char.toNat, m.2))

/-- The text of an object, of the names of its members and the texts of their values. -/
def spacedMembers (members : List (String × List Char)) : List Char :=
  spacedObject (members.map fun m => spacedMember (quoted m.1.toList) m.2)

theorem spells_plain (h : isPlain cs = true) : Spells (quoted cs) (jsonString cs) :=
  spells_quoted (stringBody_of_all h)

theorem spellsMember_plain {name : String} (hname : isPlain name.toList = true)
    (h : Spells value v) :
    SpellsMember (spacedMember (quoted name.toList) value) (name.toList.map Char.toNat, v) :=
  ⟨_, _, rfl, ⟨_, rfl, stringBody_of_all hname⟩, h⟩

theorem spells_member {name : String} (hname : isPlain name.toList = true) (h : Spells value v) :
    Spells (spacedMembers [(name, value)]) (jsonObject [(name, v)]) :=
  spells_spacedObject (.cons (spellsMember_plain hname h) .nil)

theorem spells_members {name name' : String} {value' : List Char} {v' : Json}
    (hname : isPlain name.toList = true) (hname' : isPlain name'.toList = true)
    (h : Spells value v) (h' : Spells value' v') :
    Spells (spacedMembers [(name, value), (name', value')])
      (jsonObject [(name, v), (name', v')]) :=
  spells_spacedObject (.cons (spellsMember_plain hname h)
    (.cons (spellsMember_plain hname' h') .nil))

end Mongolite.Json
