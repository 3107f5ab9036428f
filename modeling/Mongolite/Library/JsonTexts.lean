import Mathlib.Data.List.Forall2
import Mongolite.Library.JsonReading

/-! # Texts of JSON values

The text of an object is put together from the texts of its members, whatever
these are. It stands for the object of the values that they stand for.
-/

namespace Mongolite.Json

variable {cs text value rest t : List Char} {s : List ℕ} {v : Json} {n : ℕ}

/-- A text stands for a value iff the value is at its front and only white space follows. -/
theorem parse_iff :
    parse cs = some v ↔ ∃ n rest, readValue n cs = some (v, rest) ∧ skipSpace rest = [] := by
  rw [parse, Option.bind_eq_some_iff]
  constructor
  · rintro ⟨⟨w, rest⟩, hread, h⟩
    simp only at h
    split_ifs at h with hrest
    cases h
    exact ⟨_, rest, hread, hrest⟩
  · rintro ⟨n, rest, hread, hrest⟩
    exact ⟨_, readValue_follows n _ (Nat.le_refl _) hread, by simp [hrest]⟩

/-- The text of a string: a quote, its characters perhaps escaped, and a quote. -/
def IsLiteral (text : List Char) (s : List ℕ) : Prop :=
  ∃ raw, text = '"' :: (raw ++ ['"']) ∧ StringBody raw s

theorem parse_of_isLiteral (h : IsLiteral text s) : parse text = some (.string s) := by
  obtain ⟨raw, rfl, hraw⟩ := h
  have hread := readString_of_body hraw []
  have hvalue : readValue 1 ('"' :: (raw ++ ['"'])) = some (.string s, []) :=
    readValue_iff.mpr ⟨'"', raw ++ ['"'], rfl, .inl ⟨rfl, _, hread, rfl⟩⟩
  exact parse_iff.mpr ⟨1, [], hvalue, rfl⟩

def memberText (member : List Char × List Char) : List Char := member.1 ++ ':' :: member.2

def membersText : List (List Char × List Char) → List Char
  | [] => []
  | [member] => memberText member
  | member :: members => memberText member ++ ',' :: membersText members

def objectText (members : List (List Char × List Char)) : List Char :=
  '{' :: (membersText members ++ ['}'])

def IsMember (member : List Char × List Char) (m : List ℕ × Json) : Prop :=
  IsLiteral member.1 m.1 ∧ parse member.2 = some m.2

theorem skipSpace_append_of_nil (h : skipSpace rest = []) (t : List Char) :
    skipSpace (rest ++ t) = skipSpace t := by
  unfold skipSpace at h ⊢
  rw [List.dropWhile_append, h]
  rfl

theorem stops_cons {c : Char} (hc : isTokenChar c = false) (t : List Char) : Stops (c :: t) := by
  rintro _ ⟨⟩
  exact hc

theorem readMember_memberText {member : List Char × List Char} {m : List ℕ × Json}
    (h : IsMember member m) (hn : member.2.length ≤ n) (ht : Stops t) :
    ∃ r, readMember (readValue n) (memberText member ++ t) = some (m, r) ∧
      skipSpace r = skipSpace t := by
  obtain ⟨⟨raw, hraw, hbody⟩, hvalue⟩ := h
  obtain ⟨k, rest, hread, hrest⟩ := parse_iff.mp hvalue
  have htext : memberText member ++ t = '"' :: (raw ++ '"' :: (':' :: (member.2 ++ t))) := by
    simp [memberText, hraw]
  have hname := readString_of_body hbody (':' :: (member.2 ++ t))
  have hlocal := isLocal_readValue n ht (readValue_follows k n hn hread)
  refine ⟨rest ++ t, ?_, skipSpace_append_of_nil hrest t⟩
  rw [htext]
  exact readMember_iff.mpr ⟨_, _, _, _, rfl, hname, rfl, hlocal, rfl⟩

theorem length_lt_memberText (member : List Char × List Char) :
    member.2.length < (memberText member).length := by
  simp only [memberText, List.length_append, List.length_cons]
  omega

theorem readItems_membersText {members : List (List Char × List Char)} {ms : List (List ℕ × Json)}
    (h : List.Forall₂ IsMember members ms) (hne : members ≠ [])
    (hn : (membersText members).length ≤ n) (t : List Char) :
    readItems (readMember (readValue n)) '}' members.length (membersText members ++ '}' :: t) =
      some (ms, t) := by
  induction h with
  | nil => exact absurd rfl hne
  | @cons member m members ms hm hms ih =>
    cases members with
    | nil =>
      cases hms
      have hlen := length_lt_memberText member
      obtain ⟨r, hr, hskip⟩ := readMember_memberText hm (Nat.le_trans (Nat.le_of_lt hlen) hn)
        (stops_cons (c := '}') (by decide) t)
      exact readItems_iff.mpr ⟨_, '}', t, hr, hskip, .inr ⟨by decide, rfl, rfl⟩⟩
    | cons member' members =>
      have htext : membersText (member :: member' :: members) ++ '}' :: t =
          memberText member ++ ',' :: (membersText (member' :: members) ++ '}' :: t) := by
        simp [membersText]
      have hlen := length_lt_memberText member
      simp only [membersText, List.length_append, List.length_cons] at hn
      obtain ⟨r, hr, hskip⟩ := readMember_memberText (n := n) hm (by omega)
        (stops_cons (c := ',') (by decide) (membersText (member' :: members) ++ '}' :: t))
      have hrest := ih (List.cons_ne_nil _ _) (by omega)
      rw [htext]
      exact readItems_iff.mpr ⟨_, ',', _, hr, hskip, .inl ⟨rfl, _, hrest, rfl⟩⟩

theorem exists_membersText {member : List Char × List Char} {m : List ℕ × Json}
    (h : IsMember member m) (members : List (List Char × List Char)) (t : List Char) :
    ∃ rest, membersText (member :: members) ++ t = '"' :: rest := by
  obtain ⟨⟨raw, hraw, -⟩, -⟩ := h
  cases members with
  | nil => exact ⟨_, by rw [membersText, memberText, hraw]; rfl⟩
  | cons member' members => exact ⟨_, by simp only [membersText, memberText, hraw]; rfl⟩

theorem parse_objectText {members : List (List Char × List Char)} {ms : List (List ℕ × Json)}
    (h : List.Forall₂ IsMember members ms) : parse (objectText members) = some (.object ms) := by
  refine parse_iff.mpr ⟨(membersText members).length + 1, [], readValue_iff.mpr ?_, rfl⟩
  refine ⟨'{', membersText members ++ ['}'], rfl, .inr (.inr (.inl ⟨rfl, (ms, []), ?_, rfl⟩))⟩
  cases h with
  | nil => exact readList_iff.mpr ⟨'}', [], rfl, .inl ⟨rfl, rfl⟩⟩
  | @cons member m members ms hm hms =>
    have hitems := readItems_membersText (.cons hm hms) (List.cons_ne_nil _ _) (Nat.le_refl _) []
    obtain ⟨rest, hrest⟩ := exists_membersText hm members ['}']
    rw [hrest] at hitems ⊢
    refine readList_iff.mpr ⟨'"', rest, rfl, .inr ⟨by decide, ?_⟩⟩
    exact readItems_follows (consumes_readMember (consumes_readValue _)) (fun _ _ _ hr => hr) hitems
      (Nat.le_refl _)

theorem readValue_space (n : ℕ) (cs : List Char) : readValue n (' ' :: cs) = readValue n cs := by
  cases n with
  | zero => rfl
  | succ n => rfl

end Mongolite.Json
