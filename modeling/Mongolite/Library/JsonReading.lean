import Mongolite.Library.Json

/-! # Reading JSON texts

A reader takes the same from a text whatever follows, it takes at least one
character, and enough fuel gives every result. So texts of values make the texts
of the arrays and objects that they stand in.
-/

namespace Mongolite.Json

variable {α : Type} {item item' : Reader α} {close : Char} {cs rest t : List Char} {fuel n m : ℕ}

def Consumes (item : Reader α) : Prop :=
  ∀ ⦃cs a rest⦄, item cs = some (a, rest) → rest.length < cs.length

/-- A text that does not go on with a number or a word. -/
def Stops (t : List Char) : Prop := ∀ c ∈ t.head?, isTokenChar c = false

/-- A reader that does not look at what follows. -/
def IsLocal (item : Reader α) : Prop :=
  ∀ ⦃cs a rest t⦄, Stops t → item cs = some (a, rest) → item (cs ++ t) = some (a, rest ++ t)

/-- A reader that takes what another takes, from texts up to a length. -/
def Follows (item item' : Reader α) (n : ℕ) : Prop :=
  ∀ ⦃cs r⦄, cs.length ≤ n → item cs = some r → item' cs = some r

theorem length_skipSpace_le (cs : List Char) : (skipSpace cs).length ≤ cs.length :=
  (List.dropWhile_suffix _).length_le

theorem skipSpace_append {c : Char} (t : List Char) (h : skipSpace cs = c :: rest) :
    skipSpace (cs ++ t) = c :: (rest ++ t) := by
  unfold skipSpace at h ⊢
  rw [List.dropWhile_append, h]
  rfl

/-! ## Strings -/

/-- What stands between the quotes of a string, and its characters. -/
inductive StringBody : List Char → List ℕ → Prop
  | nil : StringBody [] []
  | unit {a b c d : Char} {u : ℕ} {raw : List Char} {s : List ℕ} (h : codeUnit a b c d = some u)
      (hraw : StringBody raw s) : StringBody ('\\' :: 'u' :: a :: b :: c :: d :: raw) (u :: s)
  | escape {e : Char} {u : ℕ} {raw : List Char} {s : List ℕ} (h : simpleEscape e = some u)
      (hraw : StringBody raw s) : StringBody ('\\' :: e :: raw) (u :: s)
  | char {c : Char} {raw : List Char} {s : List ℕ} (hquote : c ≠ '"') (hescape : c ≠ '\\')
      (hcontrol : 32 ≤ c.toNat) (hraw : StringBody raw s) : StringBody (c :: raw) (c.toNat :: s)

theorem readString_of_body {raw : List Char} {s : List ℕ} (h : StringBody raw s)
    (rest : List Char) : readString (raw ++ '"' :: rest) = some (s, rest) := by
  induction h with
  | nil => rfl
  | unit h _ ih => simp [readString, h, ih]
  | @escape e u raw s h _ ih =>
    have hu : e ≠ 'u' := by
      rintro rfl
      cases h
    simp [readString, hu, h, ih]
  | char hquote hescape hcontrol _ ih =>
    simp [readString, hescape, Nat.not_lt.mpr hcontrol, ih]

theorem exists_body {s : List ℕ} (h : readString cs = some (s, rest)) :
    ∃ raw, cs = raw ++ '"' :: rest ∧ StringBody raw s := by
  fun_induction readString cs generalizing s rest with
  | case1 => cases h
  | case2 cs =>
    cases h
    exact ⟨[], rfl, .nil⟩
  | case3 a b c d cs ih =>
    simp only [Option.bind_eq_some_iff, Option.map_eq_some_iff, Prod.mk.injEq] at h
    obtain ⟨u, hu, r, hr, rfl, rfl⟩ := h
    obtain ⟨raw, rfl, hraw⟩ := ih hr
    exact ⟨_, rfl, .unit hu hraw⟩
  | case4 e cs _ ih =>
    simp only [Option.bind_eq_some_iff, Option.map_eq_some_iff, Prod.mk.injEq] at h
    obtain ⟨u, hu, r, hr, rfl, rfl⟩ := h
    obtain ⟨raw, rfl, hraw⟩ := ih hr
    exact ⟨_, rfl, .escape hu hraw⟩
  | case5 c cs => cases h
  | case6 c cs hquote _ _ hplain ih =>
    simp only [Option.map_eq_some_iff, Prod.mk.injEq] at h
    obtain ⟨r, hr, rfl, rfl⟩ := h
    obtain ⟨raw, rfl, hraw⟩ := ih hr
    obtain ⟨hescape, hcontrol⟩ := not_or.mp hplain
    exact ⟨_, rfl, .char hquote hescape (Nat.not_lt.mp hcontrol) hraw⟩

/-- Characters that stand for themselves in a string. -/
def Plain (raw : List Char) : Prop := '"' ∉ raw ∧ '\\' ∉ raw

theorem StringBody.length_le {raw : List Char} {s : List ℕ} (h : StringBody raw s) :
    s.length ≤ raw.length ∧ (s.length = raw.length → Plain raw) := by
  induction h with
  | nil => simp [Plain]
  | unit _ _ ih | escape _ _ ih =>
    simp only [List.length_cons]
    omega
  | char hquote hescape _ _ ih =>
    simp only [List.length_cons, Nat.add_le_add_iff_right, Nat.add_right_cancel_iff]
    refine ⟨ih.1, fun h => ?_⟩
    obtain ⟨hquotes, hescapes⟩ := ih.2 h
    simp [Plain, hquote.symm, hescape.symm, hquotes, hescapes]

theorem stringBody_of_all {raw : List Char}
    (h : raw.all fun c => c ≠ '"' ∧ c ≠ '\\' ∧ 32 ≤ c.toNat) :
    StringBody raw (raw.map Char.toNat) := by
  induction raw with
  | nil => exact .nil
  | cons c raw ih =>
    rw [List.all_cons, Bool.and_eq_true, decide_eq_true_eq] at h
    obtain ⟨⟨hquote, hescape, hcontrol⟩, hraw⟩ := h
    exact .char hquote hescape hcontrol (ih hraw)

theorem StringBody.append {raw raw' : List Char} {s s' : List ℕ} (h : StringBody raw s)
    (h' : StringBody raw' s') : StringBody (raw ++ raw') (s ++ s') := by
  induction h with
  | nil => exact h'
  | unit hu _ ih => exact .unit hu ih
  | escape he _ ih => exact .escape he ih
  | char hquote hescape hcontrol _ ih => exact .char hquote hescape hcontrol ih

theorem stringBody_escapeChar (c : Char) : StringBody (escapeChar c) [c.toNat] := by
  have hunit : ∀ n < 32, codeUnit '0' '0' (hexChar (n / 16)) (hexChar (n % 16)) = some n := by
    decide
  unfold escapeChar
  split_ifs with hquote hbackslash h₁ h₂ h₃ h₄ h₅ hcontrol
  · exact .escape (by rw [hquote]; rfl) .nil
  · exact .escape (by rw [hbackslash]; rfl) .nil
  · exact .escape (by rw [h₁]; rfl) .nil
  · exact .escape (by rw [h₂]; rfl) .nil
  · exact .escape (by rw [h₃]; rfl) .nil
  · exact .escape (by rw [h₄]; rfl) .nil
  · exact .escape (by rw [h₅]; rfl) .nil
  · exact .unit (hunit _ hcontrol) .nil
  · exact .char hquote hbackslash (Nat.not_lt.mp hcontrol) .nil

theorem stringBody_escape (cs : List Char) : StringBody (escape cs) (cs.map Char.toNat) := by
  induction cs with
  | nil => exact .nil
  | cons c cs ih => exact (stringBody_escapeChar c).append ih

theorem readString_append {s : List ℕ} (t : List Char) (h : readString cs = some (s, rest)) :
    readString (cs ++ t) = some (s, rest ++ t) := by
  obtain ⟨raw, rfl, hbody⟩ := exists_body h
  rw [List.append_assoc]
  exact readString_of_body hbody _

theorem consumes_readString : Consumes readString := by
  intro cs s rest h
  obtain ⟨raw, rfl, -⟩ := exists_body h
  simp only [List.length_append, List.length_cons]
  omega

/-! ## Numbers and words -/

theorem takeWhile_stops (ht : Stops t) (cs : List Char) :
    (cs ++ t).takeWhile isTokenChar = cs.takeWhile isTokenChar ∧
      (cs ++ t).dropWhile isTokenChar = cs.dropWhile isTokenChar ++ t := by
  induction cs with
  | nil =>
    cases t with
    | nil => exact ⟨rfl, rfl⟩
    | cons c t =>
      have hc : isTokenChar c = false := ht c rfl
      simp [hc]
  | cons c cs ih =>
    cases hc : isTokenChar c with
    | true => simp [hc, ih]
    | false => simp [hc]

theorem isLocal_readToken : IsLocal readToken := by
  intro cs v rest t ht h
  obtain ⟨htake, hdrop⟩ := takeWhile_stops ht cs
  obtain ⟨v, hv, heq⟩ := Option.map_eq_some_iff.mp h
  cases heq
  rw [readToken, htake, hdrop, hv, Option.map_some]

theorem consumes_readToken : Consumes readToken := by
  intro cs v rest h
  obtain ⟨v, hv, heq⟩ := Option.map_eq_some_iff.mp h
  cases heq
  have hlen := congrArg List.length (List.takeWhile_append_dropWhile (p := isTokenChar) (l := cs))
  rw [List.length_append] at hlen
  have hne : (cs.takeWhile isTokenChar).length ≠ 0 := by
    intro hzero
    rw [List.length_eq_zero_iff.mp hzero] at hv
    cases hv
  omega

/-! ## Items -/

theorem readItems_iff {r : List α × List Char} :
    readItems item close (n + 1) cs = some r ↔ ∃ a c rest, item cs = some a ∧
      skipSpace a.2 = c :: rest ∧
        ((c = ',' ∧ ∃ q, readItems item close n rest = some q ∧ r = (a.1 :: q.1, q.2)) ∨
          (c ≠ ',' ∧ c = close ∧ r = ([a.1], rest))) := by
  rw [readItems, Option.bind_eq_some_iff]
  constructor
  · rintro ⟨a, ha, h⟩
    cases hs : skipSpace a.2 with
    | nil => simp [hs] at h
    | cons c rest =>
      simp only [hs] at h
      refine ⟨a, c, rest, ha, hs, ?_⟩
      split_ifs at h with hcomma hclose
      · obtain ⟨q, hq, rfl⟩ := Option.map_eq_some_iff.mp h
        exact .inl ⟨hcomma, q, hq, rfl⟩
      · exact .inr ⟨hcomma, hclose, (Option.some.inj h).symm⟩
  · rintro ⟨a, c, rest, ha, hs, ⟨rfl, q, hq, rfl⟩ | ⟨hcomma, rfl, rfl⟩⟩
    · exact ⟨a, ha, by simp [hs, hq]⟩
    · exact ⟨a, ha, by simp [hs, hcomma]⟩

theorem readList_iff {r : List α × List Char} :
    readList item close cs = some r ↔ ∃ c rest, skipSpace cs = c :: rest ∧
      ((c = close ∧ r = ([], rest)) ∨
        (c ≠ close ∧ readItems item close (rest.length + 1) (c :: rest) = some r)) := by
  unfold readList
  cases hs : skipSpace cs with
  | nil => simp
  | cons c rest =>
    by_cases hclose : c = close
    · simp [hclose, eq_comm]
    · simp [hclose]

theorem consumes_readItems (hitem : Consumes item) (n : ℕ) : Consumes (readItems item close n) := by
  intro cs xs rest h
  induction n generalizing cs xs with
  | zero => cases h
  | succ n ih =>
    obtain ⟨a, c, rest', ha, hs, hcase⟩ := readItems_iff.mp h
    have hless := hitem ha
    have hskip := length_skipSpace_le a.2
    rw [hs, List.length_cons] at hskip
    rcases hcase with ⟨-, q, hq, heq⟩ | ⟨-, -, heq⟩
    · cases heq
      have hrest := ih hq
      omega
    · cases heq
      omega

theorem isLocal_readItems (hitem : IsLocal item) (n : ℕ) : IsLocal (readItems item close n) := by
  intro cs xs rest t ht h
  induction n generalizing cs xs with
  | zero => cases h
  | succ n ih =>
    obtain ⟨a, c, rest', ha, hs, hcase⟩ := readItems_iff.mp h
    refine readItems_iff.mpr ⟨_, c, rest' ++ t, hitem ht ha, skipSpace_append t hs, ?_⟩
    rcases hcase with ⟨hcomma, q, hq, heq⟩ | ⟨hcomma, hclose, heq⟩
    · cases heq
      exact .inl ⟨hcomma, _, ih hq, rfl⟩
    · cases heq
      exact .inr ⟨hcomma, hclose, rfl⟩

/-- As many rounds as the text is long are enough. -/
theorem readItems_follows (hitem : Consumes item) (hfollows : Follows item item' cs.length)
    {r : List α × List Char} (h : readItems item close n cs = some r) (hm : cs.length ≤ m) :
    readItems item' close m cs = some r := by
  induction n generalizing cs r m with
  | zero => cases h
  | succ n ih =>
    obtain ⟨a, c, rest, ha, hs, hcase⟩ := readItems_iff.mp h
    have hless := hitem ha
    have hskip := length_skipSpace_le a.2
    rw [hs, List.length_cons] at hskip
    obtain ⟨m, rfl⟩ : ∃ m', m = m' + 1 := ⟨m - 1, by omega⟩
    refine readItems_iff.mpr ⟨a, c, rest, hfollows (Nat.le_refl _) ha, hs, ?_⟩
    rcases hcase with ⟨hcomma, q, hq, heq⟩ | hend
    · have hrest : Follows item item' rest.length := fun cs r hcs => hfollows (by omega)
      exact .inl ⟨hcomma, q, ih hrest hq (by omega), heq⟩
    · exact .inr hend

theorem consumes_readList (hitem : Consumes item) : Consumes (readList item close) := by
  intro cs xs rest h
  have hskip := length_skipSpace_le cs
  obtain ⟨c, rest', hs, ⟨-, heq⟩ | ⟨-, hitems⟩⟩ := readList_iff.mp h
  · cases heq
    rw [hs, List.length_cons] at hskip
    omega
  · have hless := consumes_readItems hitem _ hitems
    rw [hs] at hskip
    omega

theorem isLocal_readList (hconsumes : Consumes item) (hitem : IsLocal item) :
    IsLocal (readList item close) := by
  intro cs xs rest t ht h
  obtain ⟨c, rest', hs, hcase⟩ := readList_iff.mp h
  refine readList_iff.mpr ⟨c, rest' ++ t, skipSpace_append t hs, ?_⟩
  rcases hcase with ⟨hclose, heq⟩ | ⟨hclose, hitems⟩
  · cases heq
    exact .inl ⟨hclose, rfl⟩
  · have hlocal := isLocal_readItems hitem _ ht hitems
    exact .inr ⟨hclose, readItems_follows hconsumes (fun _ _ _ hr => hr) hlocal (by simp)⟩

theorem readList_follows (hitem : Consumes item) (hfollows : Follows item item' cs.length)
    {r : List α × List Char} (h : readList item close cs = some r) :
    readList item' close cs = some r := by
  have hskip := length_skipSpace_le cs
  obtain ⟨c, rest, hs, hcase⟩ := readList_iff.mp h
  refine readList_iff.mpr ⟨c, rest, hs, ?_⟩
  rcases hcase with hend | ⟨hclose, hitems⟩
  · exact .inl hend
  · rw [hs] at hskip
    have hrest : Follows item item' (c :: rest).length := fun _ _ hcs =>
      hfollows (Nat.le_trans hcs hskip)
    exact .inr ⟨hclose, readItems_follows hitem hrest hitems (by simp)⟩

/-! ## Members and values -/

variable {value value' : Reader Json}

theorem readMember_iff {r : (List ℕ × Json) × List Char} :
    readMember value cs = some r ↔ ∃ cs' name cs'' v, skipSpace cs = '"' :: cs' ∧
      readString cs' = some name ∧ skipSpace name.2 = ':' :: cs'' ∧ value cs'' = some v ∧
        r = ((name.1, v.1), v.2) := by
  unfold readMember
  constructor
  · intro h
    cases hs : skipSpace cs with
    | nil => simp [hs] at h
    | cons c cs' =>
      simp only [hs] at h
      split_ifs at h with hquote
      obtain ⟨name, hname, h⟩ := Option.bind_eq_some_iff.mp h
      cases hcolon : skipSpace name.2 with
      | nil => simp [hcolon] at h
      | cons c' cs'' =>
        simp only [hcolon] at h
        split_ifs at h with hc'
        obtain ⟨v, hv, rfl⟩ := Option.map_eq_some_iff.mp h
        exact ⟨cs', name, cs'', v, by rw [hquote], hname, by rw [hcolon, hc'], hv, rfl⟩
  · rintro ⟨cs', name, cs'', v, hs, hname, hcolon, hv, rfl⟩
    simp [hs, hname, hcolon, hv]

theorem consumes_readMember (hvalue : Consumes value) : Consumes (readMember value) := by
  intro cs r rest h
  obtain ⟨cs', name, cs'', v, hs, hname, hcolon, hv, heq⟩ := readMember_iff.mp h
  cases heq
  have hskip := length_skipSpace_le cs
  have hskip' := length_skipSpace_le name.2
  have hless := consumes_readString hname
  have hless' := hvalue hv
  rw [hs, List.length_cons] at hskip
  rw [hcolon, List.length_cons] at hskip'
  omega

theorem isLocal_readMember (hvalue : IsLocal value) : IsLocal (readMember value) := by
  intro cs r rest t ht h
  obtain ⟨cs', name, cs'', v, hs, hname, hcolon, hv, heq⟩ := readMember_iff.mp h
  cases heq
  exact readMember_iff.mpr ⟨_, _, _, _, skipSpace_append t hs, readString_append t hname,
    skipSpace_append t hcolon, hvalue ht hv, rfl⟩

theorem readMember_follows (hfollows : Follows value value' n) :
    Follows (readMember value) (readMember value') n := by
  intro cs r hcs h
  obtain ⟨cs', name, cs'', v, hs, hname, hcolon, hv, heq⟩ := readMember_iff.mp h
  have hskip := length_skipSpace_le cs
  have hskip' := length_skipSpace_le name.2
  have hless := consumes_readString hname
  rw [hs, List.length_cons] at hskip
  rw [hcolon, List.length_cons] at hskip'
  exact readMember_iff.mpr ⟨cs', name, cs'', v, hs, hname, hcolon, hfollows (by omega) hv, heq⟩

theorem readValue_iff {r : Json × List Char} :
    readValue (n + 1) cs = some r ↔ ∃ c rest, skipSpace cs = c :: rest ∧
      ((c = '"' ∧ ∃ q, readString rest = some q ∧ r = (.string q.1, q.2)) ∨
        (c = '[' ∧ ∃ q, readList (readValue n) ']' rest = some q ∧ r = (.array q.1, q.2)) ∨
        (c = '{' ∧ ∃ q, readList (readMember (readValue n)) '}' rest = some q ∧
          r = (.object q.1, q.2)) ∨
        (c ≠ '"' ∧ c ≠ '[' ∧ c ≠ '{' ∧ readToken (c :: rest) = some r)) := by
  simp only [readValue]
  constructor
  · intro h
    cases hs : skipSpace cs with
    | nil => simp [hs] at h
    | cons c rest =>
      simp only [hs] at h
      refine ⟨c, rest, rfl, ?_⟩
      split_ifs at h with hquote hbracket hbrace
      · obtain ⟨q, hq, rfl⟩ := Option.map_eq_some_iff.mp h
        exact .inl ⟨hquote, q, hq, rfl⟩
      · obtain ⟨q, hq, rfl⟩ := Option.map_eq_some_iff.mp h
        exact .inr (.inl ⟨hbracket, q, hq, rfl⟩)
      · obtain ⟨q, hq, rfl⟩ := Option.map_eq_some_iff.mp h
        exact .inr (.inr (.inl ⟨hbrace, q, hq, rfl⟩))
      · exact .inr (.inr (.inr ⟨hquote, hbracket, hbrace, h⟩))
  · rintro ⟨c, rest, hs, hcase⟩
    rcases hcase with ⟨rfl, q, hq, rfl⟩ | ⟨rfl, q, hq, rfl⟩ | ⟨rfl, q, hq, rfl⟩ | ⟨h₁, h₂, h₃, h⟩
    · simp [hs, hq]
    · simp [hs, hq]
    · simp [hs, hq]
    · simp [hs, h₁, h₂, h₃, h]

theorem consumes_readValue (n : ℕ) : Consumes (readValue n) := by
  induction n with
  | zero =>
    rintro cs v rest ⟨⟩
  | succ n ih =>
    intro cs v rest h
    have hskip := length_skipSpace_le cs
    obtain ⟨c, rest', hs, hcase⟩ := readValue_iff.mp h
    rw [hs, List.length_cons] at hskip
    rcases hcase with ⟨-, q, hq, heq⟩ | ⟨-, q, hq, heq⟩ | ⟨-, q, hq, heq⟩ | ⟨-, -, -, htoken⟩
    · cases heq
      have := consumes_readString hq
      omega
    · cases heq
      have := consumes_readList ih hq
      omega
    · cases heq
      have := consumes_readList (consumes_readMember ih) hq
      omega
    · have := consumes_readToken htoken
      rw [List.length_cons] at this
      omega

theorem isLocal_readValue (n : ℕ) : IsLocal (readValue n) := by
  induction n with
  | zero =>
    rintro cs v rest t _ ⟨⟩
  | succ n ih =>
    intro cs v rest t ht h
    obtain ⟨c, rest', hs, hcase⟩ := readValue_iff.mp h
    refine readValue_iff.mpr ⟨c, rest' ++ t, skipSpace_append t hs, ?_⟩
    rcases hcase with ⟨hc, q, hq, heq⟩ | ⟨hc, q, hq, heq⟩ | ⟨hc, q, hq, heq⟩ | ⟨h₁, h₂, h₃, htoken⟩
    · cases heq
      exact .inl ⟨hc, _, readString_append t hq, rfl⟩
    · cases heq
      exact .inr (.inl ⟨hc, _, isLocal_readList (consumes_readValue n) ih ht hq, rfl⟩)
    · cases heq
      have hlocal : IsLocal (readList (readMember (readValue n)) '}') :=
        isLocal_readList (consumes_readMember (consumes_readValue n)) (isLocal_readMember ih)
      exact .inr (.inr (.inl ⟨hc, _, hlocal ht hq, rfl⟩))
    · exact .inr (.inr (.inr ⟨h₁, h₂, h₃, isLocal_readToken ht htoken⟩))

/-- Fuel for as many levels as the text is long is enough. -/
theorem readValue_follows (n m : ℕ) : Follows (readValue n) (readValue m) m := by
  induction n generalizing m with
  | zero =>
    rintro cs r _ ⟨⟩
  | succ n ih =>
    intro cs r hcs h
    have hskip := length_skipSpace_le cs
    obtain ⟨c, rest, hs, hcase⟩ := readValue_iff.mp h
    rw [hs, List.length_cons] at hskip
    obtain ⟨m, rfl⟩ : ∃ m', m = m' + 1 := ⟨m - 1, by omega⟩
    have hrest : Follows (readValue n) (readValue m) rest.length := fun cs r hcs =>
      ih m (by omega)
    refine readValue_iff.mpr ⟨c, rest, hs, ?_⟩
    rcases hcase with hstring | ⟨hc, q, hq, heq⟩ | ⟨hc, q, hq, heq⟩ | htoken
    · exact .inl hstring
    · exact .inr (.inl ⟨hc, q, readList_follows (consumes_readValue n) hrest hq, heq⟩)
    · have hmembers := readList_follows (consumes_readMember (consumes_readValue n))
        (readMember_follows hrest) hq
      exact .inr (.inr (.inl ⟨hc, q, hmembers, heq⟩))
    · exact .inr (.inr (.inr htoken))

end Mongolite.Json
