import Mathlib.Data.List.DropRight
import Mathlib.Data.List.GetD
import Mongolite.Library.CText

/-! # Binary data as text

`mcommon_b64_ntop` writes three bytes as four characters, and `mcommon_b64_pton`
takes characters one by one with a state for their place in a group of four. It
passes over white space, and otherwise takes exactly what is written.
-/

namespace Mongolite

def base64Alphabet : List Char :=
  "ABCDEFGHIJKLMNOPQRSTUVWXYZabcdefghijklmnopqrstuvwxyz0123456789+/".toList

def base64Char (n : ℕ) : Char := base64Alphabet.getD n '='

def mcommonB64Ntop : List UInt8 → List Char
  | a :: b :: c :: src =>
    base64Char (a.toNat >>> 2) ::
      base64Char (((a.toNat &&& 0x03) <<< 4) + (b.toNat >>> 4)) ::
      base64Char (((b.toNat &&& 0x0f) <<< 2) + (c.toNat >>> 6)) ::
      base64Char (c.toNat &&& 0x3f) :: mcommonB64Ntop src
  | [a, b] =>
    [base64Char (a.toNat >>> 2), base64Char (((a.toNat &&& 0x03) <<< 4) + (b.toNat >>> 4)),
      base64Char ((b.toNat &&& 0x0f) <<< 2), '=']
  | [a] => [base64Char (a.toNat >>> 2), base64Char ((a.toNat &&& 0x03) <<< 4), '=', '=']
  | [] => []

inductive Base64Class
  | value (ofs : ℕ)
  | space
  | ending
  | invalid

def mongocB64rmap (c : Char) : Base64Class :=
  match base64Alphabet.findIdx? (· == c) with
  | some ofs => .value ofs
  | none => if c = '\x00' ∨ c = '=' then .ending else if isSpace c then .space else .invalid

/-- The places of a character in a group of four. -/
inductive Base64Place
  | first
  | second
  | third
  | fourth
  deriving DecidableEq

def Base64Place.next : Base64Place → Base64Place
  | first => second
  | second => third
  | third => fourth
  | fourth => first

/-- The place, the bytes that are complete, and the one at `tarindex`, which may not be. -/
structure Pton where
  place : Base64Place
  target : List UInt8
  part : ℕ

/-- The `switch` of `mongoc_b64_pton_do`. -/
def mongocB64PtonStep (targsize : ℕ) (st : Pton) (ofs : ℕ) : Option Pton :=
  match st.place with
  | .first => if st.target.length ≥ targsize then none else some ⟨.second, st.target, ofs <<< 2⟩
  | .second =>
    if st.target.length + 1 ≥ targsize then none
    else
      some ⟨.third, st.target ++ [UInt8.ofNat (st.part ||| ofs >>> 4)], (ofs &&& 0x0f) <<< 4⟩
  | .third =>
    if st.target.length + 1 ≥ targsize then none
    else
      some ⟨.fourth, st.target ++ [UInt8.ofNat (st.part ||| ofs >>> 2)], (ofs &&& 0x03) <<< 6⟩
  | .fourth =>
    if st.target.length ≥ targsize then none
    else some ⟨.first, st.target ++ [UInt8.ofNat (st.part ||| ofs)], 0⟩

/-- The `switch` of `mongoc_b64_pton_len`, which counts the bytes. -/
def mongocB64PtonLenStep (st : Base64Place × ℕ) (_ofs : ℕ) : Option (Base64Place × ℕ) :=
  match st.1 with
  | .first => some (.second, st.2)
  | place => some (place.next, st.2 + 1)

section Reading

variable {σ : Type} (step : σ → ℕ → Option σ) (place : σ → Base64Place) (complete : σ → Bool)

/-- The loop over the characters; it stops at the padding. -/
def ptonLoop : σ → List Char → Option (σ × List Char)
  | st, [] => some (st, [])
  | st, c :: src =>
    match mongocB64rmap c with
    | .value ofs => (step st ofs).bind fun st => ptonLoop st src
    | .space => ptonLoop st src
    | .ending => some (st, c :: src)
    | .invalid => none

/-- What comes after the loop; `complete` is the check of the bits that are left over. -/
def ptonEnd (st : σ) : List Char → Bool
  | '=' :: src =>
    match place st with
    | .first | .second => false
    | .third =>
      match src.dropWhile isSpace with
      | '=' :: src => src.all isSpace && complete st
      | _ => false
    | .fourth => src.all isSpace && complete st
  | _ => place st = .first

def pton (st : σ) (src : List Char) : Option σ :=
  (ptonLoop step st src).bind fun r => if ptonEnd place complete r.1 r.2 then some r.1 else none

end Reading

def mongocB64PtonDo (targsize : ℕ) (src : List Char) : Option (List UInt8) :=
  (pton (mongocB64PtonStep targsize) Pton.place (fun st => st.part = 0) ⟨.first, [], 0⟩ src).map
    Pton.target

def mongocB64PtonLen (src : List Char) : Option ℕ :=
  (pton mongocB64PtonLenStep Prod.fst (fun _ => true) (.first, 0) src).map Prod.snd

/-- The two calls of `mcommon_b64_pton` by which binary data is read from JSON: one for the length
and one for the bytes. -/
def readBase64 (src : List Char) : Option (List UInt8) :=
  (mongocB64PtonLen src).bind fun len => mongocB64PtonDo (len + 1) src

variable {a b c part : ℕ} {bs target : List UInt8} {cs src : List Char} {ch : Char}
  {targsize ofs : ℕ}

/-! ## Groups of bits -/

theorem shiftLeft_or {k : ℕ} (a : ℕ) (h : b < 2 ^ k) : a <<< k ||| b = a * 2 ^ k + b := by
  rw [← Nat.shiftLeft_add_eq_or_of_lt h, Nat.shiftLeft_eq]

theorem second_sextet (a b : ℕ) : ((a &&& 0x03) <<< 4) + (b >>> 4) = a % 4 * 16 + b / 16 := by
  rw [Nat.shiftLeft_eq, Nat.shiftRight_eq_div_pow, Nat.and_two_pow_sub_one_eq_mod a 2]

theorem third_sextet (b c : ℕ) : ((b &&& 0x0f) <<< 2) + (c >>> 6) = b % 16 * 4 + c / 64 := by
  rw [Nat.shiftLeft_eq, Nat.shiftRight_eq_div_pow, Nat.and_two_pow_sub_one_eq_mod b 4]

theorem first_byte (a : ℕ) (h : b < 64) : a <<< 2 ||| b >>> 4 = a * 4 + b / 16 := by
  have hlow : b >>> 4 = b / 16 := Nat.shiftRight_eq_div_pow b 4
  rw [hlow]
  exact shiftLeft_or a (by omega)

theorem second_byte (a : ℕ) (h : b < 64) :
    (a &&& 0x0f) <<< 4 ||| b >>> 2 = a % 16 * 16 + b / 4 := by
  have hlow : b >>> 2 = b / 4 := Nat.shiftRight_eq_div_pow b 2
  have hmask : a &&& 0x0f = a % 16 := Nat.and_two_pow_sub_one_eq_mod a 4
  rw [hlow, hmask]
  exact shiftLeft_or _ (by omega)

theorem third_byte (a : ℕ) (h : b < 64) : (a &&& 0x03) <<< 6 ||| b = a % 4 * 64 + b := by
  have hmask : a &&& 0x03 = a % 4 := Nat.and_two_pow_sub_one_eq_mod a 2
  rw [hmask]
  exact shiftLeft_or _ h

/-! ## Characters -/

theorem rmap_base64Char (h : ofs < 64) : mongocB64rmap (base64Char ofs) = .value ofs := by
  have hall : ∀ n < 64, base64Alphabet.findIdx? (· == base64Char n) = some n := by decide +kernel
  rw [mongocB64rmap, hall ofs h]

theorem base64Char_of_rmap (h : mongocB64rmap ch = .value ofs) :
    ofs < 64 ∧ ch = base64Char ofs := by
  unfold mongocB64rmap at h
  cases hidx : base64Alphabet.findIdx? (· == ch) with
  | none =>
    rw [hidx] at h
    simp only at h
    split_ifs at h
  | some n =>
    rw [hidx] at h
    cases h
    obtain ⟨hlt, heq, -⟩ := List.findIdx?_eq_some_iff_getElem.mp hidx
    refine ⟨hlt, ?_⟩
    rw [base64Char, List.getD_eq_getElem _ _ hlt]
    exact (eq_of_beq heq).symm

theorem rmap_of_isSpace (h : isSpace ch = true) : mongocB64rmap ch = .space := by
  have hall : [' ', '\t', '\n', '\x0b', '\x0c', '\r'].all
      (fun c => base64Alphabet.findIdx? (· == c) = none ∧ ¬ (c = '\x00' ∨ c = '=')) := by decide
  have hch := List.all_eq_true.mp hall ch (List.contains_iff_mem.mp h)
  rw [decide_eq_true_eq] at hch
  rw [mongocB64rmap, hch.1]
  simp only
  rw [if_neg hch.2, if_pos h]

theorem isSpace_of_rmap (h : mongocB64rmap ch = .space) : isSpace ch = true := by
  unfold mongocB64rmap at h
  cases hidx : base64Alphabet.findIdx? (· == ch) with
  | none =>
    rw [hidx] at h
    simp only at h
    split_ifs at h with _ hspace
    exact hspace
  | some n =>
    rw [hidx] at h
    cases h

theorem eq_of_rmap_ending (h : mongocB64rmap ch = .ending) : ch = '\x00' ∨ ch = '=' := by
  unfold mongocB64rmap at h
  cases hidx : base64Alphabet.findIdx? (· == ch) with
  | none =>
    rw [hidx] at h
    simp only at h
    split_ifs at h with hending
    exact hending
  | some n =>
    rw [hidx] at h
    cases h

/-! ## White space -/

section Machine

variable {σ : Type} {step : σ → ℕ → Option σ} {place : σ → Base64Place} {complete : σ → Bool}
  {st st' : σ}

def withoutSpace (src : List Char) : List Char := src.filter (!isSpace ·)

theorem ptonLoop_withoutSpace (st : σ) (src : List Char) :
    ptonLoop step st (withoutSpace src) =
      (ptonLoop step st src).map fun r => (r.1, withoutSpace r.2) := by
  induction src generalizing st with
  | nil => rfl
  | cons c src ih =>
    by_cases hspace : isSpace c = true
    · have hfilter : withoutSpace (c :: src) = withoutSpace src :=
        List.filter_cons_of_neg (by simp [hspace])
      rw [hfilter, ih, ptonLoop, rmap_of_isSpace hspace]
    · have hfilter : withoutSpace (c :: src) = c :: withoutSpace src :=
        List.filter_cons_of_pos (by simpa using hspace)
      rw [hfilter, ptonLoop, ptonLoop]
      cases hc : mongocB64rmap c with
      | value ofs =>
        simp only
        cases step st ofs with
        | none => rfl
        | some st => exact ih st
      | space => exact absurd (isSpace_of_rmap hc) hspace
      | ending => simp only [Option.map_some, hfilter]
      | invalid => rfl

theorem withoutSpace_cons (hspace : isSpace ch = false) (src : List Char) :
    withoutSpace (ch :: src) = ch :: withoutSpace src :=
  List.filter_cons_of_pos (by rw [hspace]; rfl)

theorem withoutSpace_dropWhile (src : List Char) :
    withoutSpace (src.dropWhile isSpace) = withoutSpace src := by
  induction src with
  | nil => rfl
  | cons c src ih =>
    by_cases hspace : isSpace c = true
    · rw [List.dropWhile_cons_of_pos hspace, ih]
      exact (List.filter_cons_of_neg (by simp [hspace])).symm
    · rw [List.dropWhile_cons_of_neg hspace]

theorem dropWhile_withoutSpace (src : List Char) :
    (withoutSpace src).dropWhile isSpace = withoutSpace src := by
  rw [List.dropWhile_eq_self_iff]
  intro hne
  have hhead := List.of_mem_filter (List.getElem_mem hne)
  simpa using hhead

theorem all_withoutSpace (src : List Char) :
    (withoutSpace src).all isSpace = src.all isSpace := by
  rw [Bool.eq_iff_iff, List.all_eq_true, List.all_eq_true]
  constructor
  · intro h c hc
    by_contra hspace
    exact hspace (h c (List.mem_filter.mpr ⟨hc, by simpa using hspace⟩))
  · exact fun h c hc => h c (List.mem_of_mem_filter hc)

theorem ptonEnd_withoutSpace (st : σ) {src : List Char}
    (hhead : ∀ c ∈ src.head?, isSpace c = false) :
    ptonEnd place complete st (withoutSpace src) = ptonEnd place complete st src := by
  cases src with
  | nil => rfl
  | cons c src =>
    rw [withoutSpace_cons (hhead c rfl)]
    by_cases hpad : c = '='
    · subst hpad
      simp only [ptonEnd, all_withoutSpace, dropWhile_withoutSpace]
      rw [← withoutSpace_dropWhile]
      cases hd : src.dropWhile isSpace with
      | nil => rfl
      | cons d rest =>
        have hspace : isSpace d = false := by
          have hhead := List.head?_dropWhile_not isSpace src
          rw [hd] at hhead
          simpa using hhead
        rw [withoutSpace_cons hspace]
        by_cases hpad' : d = '='
        · subst hpad'
          simp only [all_withoutSpace]
        · simp [hpad']
    · simp [ptonEnd, hpad]

theorem not_isSpace_of_ptonLoop {rest : List Char} (h : ptonLoop step st src = some (st', rest)) :
    ∀ c ∈ rest.head?, isSpace c = false := by
  induction src generalizing st with
  | nil =>
    cases h
    rintro c ⟨⟩
  | cons c src ih =>
    rw [ptonLoop] at h
    cases hc : mongocB64rmap c with
    | value ofs =>
      rw [hc] at h
      obtain ⟨st₁, -, h⟩ := Option.bind_eq_some_iff.mp h
      exact ih h
    | space =>
      rw [hc] at h
      exact ih h
    | ending =>
      rw [hc] at h
      cases h
      rintro c ⟨⟩
      by_contra hspace
      rw [Bool.not_eq_false] at hspace
      rw [rmap_of_isSpace hspace] at hc
      cases hc
    | invalid =>
      rw [hc] at h
      cases h

theorem pton_withoutSpace (st : σ) (src : List Char) :
    pton step place complete st (withoutSpace src) = pton step place complete st src := by
  rw [pton, pton, ptonLoop_withoutSpace]
  cases hloop : ptonLoop step st src with
  | none => rfl
  | some r =>
    simp only [Option.map_some, Option.bind_some,
      ptonEnd_withoutSpace r.1 (not_isSpace_of_ptonLoop hloop)]

theorem pton_cons (hspace : isSpace ch = false) (hnul : ch ≠ '\x00')
    (h : pton step place complete st (ch :: src) = some st') :
    (∃ ofs < 64, ch = base64Char ofs ∧ ∃ st₁, step st ofs = some st₁ ∧
        pton step place complete st₁ src = some st') ∨
      ch = '=' ∧ ptonEnd place complete st ('=' :: src) = true ∧ st = st' := by
  rw [pton, ptonLoop] at h
  cases hc : mongocB64rmap ch with
  | value ofs =>
    obtain ⟨hlt, hch⟩ := base64Char_of_rmap hc
    rw [hc] at h
    simp only [Option.bind_assoc] at h
    obtain ⟨st₁, hstep, h⟩ := Option.bind_eq_some_iff.mp h
    exact .inl ⟨ofs, hlt, hch, st₁, hstep, h⟩
  | space =>
    rw [isSpace_of_rmap hc] at hspace
    cases hspace
  | ending =>
    obtain rfl := (eq_of_rmap_ending hc).resolve_left hnul
    rw [hc] at h
    simp only [Option.bind_some] at h
    split_ifs at h with hend
    cases h
    exact .inr ⟨rfl, hend, rfl⟩
  | invalid =>
    rw [hc] at h
    cases h

theorem pton_step {st₁ : σ} (hofs : ofs < 64) (hstep : step st ofs = some st₁)
    (src : List Char) :
    pton step place complete st (base64Char ofs :: src) = pton step place complete st₁ src := by
  rw [pton, ptonLoop, rmap_base64Char hofs]
  simp only [hstep, Option.bind_some]
  rfl

theorem pton_pad (st : σ) (src : List Char) :
    pton step place complete st ('=' :: src) =
      if ptonEnd place complete st ('=' :: src) then some st else none := by
  have hpad : mongocB64rmap '=' = .ending := rfl
  rw [pton, ptonLoop, hpad]
  rfl

theorem pton_nil (st : σ) : pton step place complete st [] =
    if place st = .first then some st else none := by
  simp [pton, ptonLoop, ptonEnd]

end Machine

/-! ## Round trip -/

theorem ntop_three (a b c : UInt8) (src : List UInt8) : mcommonB64Ntop (a :: b :: c :: src) =
    base64Char (a.toNat / 4) :: base64Char (a.toNat % 4 * 16 + b.toNat / 16) ::
      base64Char (b.toNat % 16 * 4 + c.toNat / 64) :: base64Char (c.toNat % 64) ::
      mcommonB64Ntop src := by
  rw [mcommonB64Ntop, second_sextet, third_sextet, Nat.shiftRight_eq_div_pow,
    Nat.and_two_pow_sub_one_eq_mod c.toNat 6]

theorem ntop_two (a b : UInt8) : mcommonB64Ntop [a, b] =
    [base64Char (a.toNat / 4), base64Char (a.toNat % 4 * 16 + b.toNat / 16),
      base64Char (b.toNat % 16 * 4), '='] := by
  rw [mcommonB64Ntop, second_sextet, Nat.shiftRight_eq_div_pow, Nat.shiftLeft_eq,
    Nat.and_two_pow_sub_one_eq_mod b.toNat 4]

theorem ntop_one (a : UInt8) : mcommonB64Ntop [a] =
    [base64Char (a.toNat / 4), base64Char (a.toNat % 4 * 16), '=', '='] := by
  rw [mcommonB64Ntop, Nat.shiftRight_eq_div_pow, Nat.shiftLeft_eq,
    Nat.and_two_pow_sub_one_eq_mod a.toNat 2]

theorem ofNat_eq_of_toNat {x : UInt8} {n : ℕ} (h : n = x.toNat) : UInt8.ofNat n = x := by
  rw [h, UInt8.ofNat_toNat]

theorem ptonLen_ntop (bs : List UInt8) (n : ℕ) :
    (pton mongocB64PtonLenStep Prod.fst (fun _ => true) (.first, n) (mcommonB64Ntop bs)).map
      Prod.snd = some (n + bs.length) := by
  fun_induction mcommonB64Ntop bs generalizing n with
  | case1 a b c src ih =>
    have ha := a.toNat_lt
    have hb := b.toNat_lt
    have hc := c.toNat_lt
    rw [← mcommonB64Ntop, ntop_three, pton_step (by omega) rfl, pton_step (by omega) rfl,
      pton_step (by omega) rfl, pton_step (by omega) rfl]
    refine (ih (n + 1 + 1 + 1)).trans (congrArg some ?_)
    simp only [List.length_cons]
    omega
  | case2 a b =>
    have ha := a.toNat_lt
    have hb := b.toNat_lt
    rw [← mcommonB64Ntop, ntop_two, pton_step (by omega) rfl, pton_step (by omega) rfl,
      pton_step (by omega) rfl, pton_pad]
    rfl
  | case3 a =>
    have ha := a.toNat_lt
    rw [← mcommonB64Ntop, ntop_one, pton_step (by omega) rfl, pton_step (by omega) rfl, pton_pad]
    rfl
  | case4 => rfl

def Pton.push (st : Pton) (ofs : ℕ) : Pton :=
  match st.place with
  | .first => ⟨.second, st.target, ofs <<< 2⟩
  | .second => ⟨.third, st.target ++ [UInt8.ofNat (st.part ||| ofs >>> 4)], (ofs &&& 0x0f) <<< 4⟩
  | .third => ⟨.fourth, st.target ++ [UInt8.ofNat (st.part ||| ofs >>> 2)], (ofs &&& 0x03) <<< 6⟩
  | .fourth => ⟨.first, st.target ++ [UInt8.ofNat (st.part ||| ofs)], 0⟩

theorem ptonStep_of_room {st : Pton} (h : st.target.length + 1 < targsize) (ofs : ℕ) :
    mongocB64PtonStep targsize st ofs = some (st.push ofs) := by
  unfold mongocB64PtonStep Pton.push
  split
  · exact if_neg (by omega)
  · exact if_neg (by omega)
  · exact if_neg (by omega)
  · exact if_neg (by omega)

theorem push_of_ptonStep {st st' : Pton} (h : mongocB64PtonStep targsize st ofs = some st') :
    st' = st.push ofs := by
  unfold mongocB64PtonStep at h
  unfold Pton.push
  split at h <;> split_ifs at h <;> exact (Option.some.inj h).symm

theorem ptonDo_ntop (bs target : List UInt8) (part : ℕ)
    (hsize : target.length + bs.length < targsize) :
    (pton (mongocB64PtonStep targsize) Pton.place (fun st => st.part = 0) ⟨.first, target, part⟩
      (mcommonB64Ntop bs)).map Pton.target = some (target ++ bs) := by
  fun_induction mcommonB64Ntop bs generalizing target part with
  | case1 a b c src ih =>
    have ha := a.toNat_lt
    have hb := b.toNat_lt
    have hc := c.toNat_lt
    simp only [List.length_cons] at hsize
    rw [← mcommonB64Ntop, ntop_three,
      pton_step (by omega) (ptonStep_of_room (by simp only; omega) _),
      pton_step (by omega) (ptonStep_of_room (by simp only [Pton.push]; omega) _),
      pton_step (by omega) (ptonStep_of_room (by simp [Pton.push]; omega) _),
      pton_step (by omega) (ptonStep_of_room (by simp [Pton.push]; omega) _)]
    simp only [Pton.push]
    rw [first_byte _ (by omega), second_byte _ (by omega), third_byte _ (by omega),
      ih _ _ (by simp; omega), ofNat_eq_of_toNat (x := a) (by omega),
      ofNat_eq_of_toNat (x := b) (by omega), ofNat_eq_of_toNat (x := c) (by omega)]
    simp
  | case2 a b =>
    have ha := a.toNat_lt
    have hb := b.toNat_lt
    have hrest : (b.toNat % 16 * 4 &&& 0x03) <<< 6 = 0 := by
      rw [Nat.and_two_pow_sub_one_eq_mod _ 2, Nat.shiftLeft_eq]
      omega
    simp only [List.length_cons, List.length_nil] at hsize
    rw [← mcommonB64Ntop, ntop_two,
      pton_step (by omega) (ptonStep_of_room (by simp only; omega) _),
      pton_step (by omega) (ptonStep_of_room (by simp only [Pton.push]; omega) _),
      pton_step (by omega) (ptonStep_of_room (by simp [Pton.push]; omega) _), pton_pad]
    simp only [Pton.push]
    rw [first_byte _ (by omega), second_byte _ (by omega),
      ofNat_eq_of_toNat (x := a) (by omega), ofNat_eq_of_toNat (x := b) (by omega)]
    simp [ptonEnd, hrest]
  | case3 a =>
    have ha := a.toNat_lt
    have hrest : (a.toNat % 4 * 16 &&& 0x0f) <<< 4 = 0 := by
      rw [Nat.and_two_pow_sub_one_eq_mod _ 4, Nat.shiftLeft_eq]
      omega
    have hpad : ['='].dropWhile isSpace = ['='] := rfl
    simp only [List.length_cons, List.length_nil] at hsize
    rw [← mcommonB64Ntop, ntop_one,
      pton_step (by omega) (ptonStep_of_room (by simp only; omega) _),
      pton_step (by omega) (ptonStep_of_room (by simp only [Pton.push]; omega) _), pton_pad]
    simp only [Pton.push]
    rw [first_byte _ (by omega), ofNat_eq_of_toNat (x := a) (by omega)]
    simp [ptonEnd, hrest, hpad]
  | case4 => simp [pton_nil]

/-- A text that is taken from the first place on ends there, or begins with two characters. -/
theorem two_of_pton {st st' : Pton} (hplace : st.place = .first)
    (hsrc : ∀ c ∈ src, isSpace c = false ∧ c ≠ '\x00')
    (h : pton (mongocB64PtonStep targsize) Pton.place (fun st => st.part = 0) st src = some st') :
    src = [] ∧ st = st' ∨ ∃ v < 64, ∃ w < 64, ∃ rest,
      src = base64Char v :: base64Char w :: rest ∧
        pton (mongocB64PtonStep targsize) Pton.place (fun st => st.part = 0)
          ((st.push v).push w) rest = some st' := by
  cases src with
  | nil =>
    rw [pton_nil, if_pos hplace] at h
    exact .inl ⟨rfl, Option.some.inj h⟩
  | cons c src =>
    rw [List.forall_mem_cons] at hsrc
    rcases pton_cons hsrc.1.1 hsrc.1.2 h with ⟨v, hv, rfl, st₁, hstep, h⟩ | ⟨-, hend, -⟩
    · have hpush := push_of_ptonStep hstep
      have hplace₁ : st₁.place = .second := by rw [hpush, Pton.push, hplace]
      cases src with
      | nil =>
        rw [pton_nil, hplace₁] at h
        cases h
      | cons c src =>
        rw [List.forall_mem_cons] at hsrc
        rcases pton_cons hsrc.2.1.1 hsrc.2.1.2 h with ⟨w, hw, rfl, st₂, hstep, h⟩ | ⟨-, hend, -⟩
        · rw [push_of_ptonStep hstep, hpush] at h
          exact .inr ⟨v, hv, w, hw, src, rfl, h⟩
        · simp [ptonEnd, hplace₁] at hend
    · simp [ptonEnd, hplace] at hend

theorem eq_nil_of_all_isSpace (hsrc : ∀ c ∈ src, isSpace c = false ∧ c ≠ '\x00')
    (h : src.all isSpace = true) : src = [] := by
  rw [List.eq_nil_iff_forall_not_mem]
  intro c hc
  exact Bool.noConfusion ((hsrc c hc).1.symm.trans (List.all_eq_true.mp h c hc))

theorem rest_of_pton {st st' : Pton} (hplace : st.place = .third)
    (hsrc : ∀ c ∈ src, isSpace c = false ∧ c ≠ '\x00')
    (h : pton (mongocB64PtonStep targsize) Pton.place (fun st => st.part = 0) st src = some st') :
    (∃ x < 64, ∃ y < 64, ∃ rest, src = base64Char x :: base64Char y :: rest ∧
        pton (mongocB64PtonStep targsize) Pton.place (fun st => st.part = 0)
          ((st.push x).push y) rest = some st') ∨
      (∃ x < 64, src = [base64Char x, '='] ∧ (st.push x).part = 0 ∧ st.push x = st') ∨
      (src = ['=', '='] ∧ st.part = 0 ∧ st = st') := by
  cases src with
  | nil =>
    rw [pton_nil, hplace] at h
    cases h
  | cons c src =>
    rw [List.forall_mem_cons] at hsrc
    rcases pton_cons hsrc.1.1 hsrc.1.2 h with ⟨x, hx, rfl, st₁, hstep, h₁⟩ | ⟨rfl, hend, rfl⟩
    · rw [push_of_ptonStep hstep] at h₁
      have hplace₁ : (st.push x).place = .fourth := by rw [Pton.push, hplace]
      cases src with
      | nil =>
        rw [pton_nil, hplace₁] at h₁
        cases h₁
      | cons c src =>
        rw [List.forall_mem_cons] at hsrc
        rcases pton_cons hsrc.2.1.1 hsrc.2.1.2 h₁ with
          ⟨y, hy, rfl, st₂, hstep, h₂⟩ | ⟨rfl, hend, rfl⟩
        · rw [push_of_ptonStep hstep] at h₂
          exact .inl ⟨x, hx, y, hy, src, rfl, h₂⟩
        · simp only [ptonEnd, hplace₁, Bool.and_eq_true, decide_eq_true_eq] at hend
          rw [eq_nil_of_all_isSpace hsrc.2.2 hend.1]
          exact .inr (.inl ⟨x, hx, rfl, hend.2, rfl⟩)
    · simp only [ptonEnd, hplace] at hend
      cases src with
      | nil => cases hend
      | cons c src =>
        rw [List.forall_mem_cons] at hsrc
        rw [List.dropWhile_cons_of_neg (by rw [hsrc.2.1.1]; exact Bool.false_ne_true)] at hend
        split at hend
        · rename_i heq
          obtain ⟨rfl, rfl⟩ := List.cons.inj heq
          rw [Bool.and_eq_true, decide_eq_true_eq] at hend
          rw [eq_nil_of_all_isSpace hsrc.2.2 hend.1]
          exact .inr (.inr ⟨rfl, hend.2, rfl⟩)
        · cases hend

theorem ntop_of_ptonDo {st : Pton} {target : List UInt8} {part : ℕ} (src : List Char)
    (hsrc : ∀ c ∈ src, isSpace c = false ∧ c ≠ '\x00')
    (h : pton (mongocB64PtonStep targsize) Pton.place (fun st => st.part = 0)
      ⟨.first, target, part⟩ src = some st) :
    ∃ bs, st.target = target ++ bs ∧ src = mcommonB64Ntop bs := by
  have hbyte {n : ℕ} (h : n < 256) : (UInt8.ofNat n).toNat = n := by
    rw [UInt8.toNat_ofNat']
    omega
  induction hn : src.length using Nat.strongRecOn generalizing src target part with
  | ind n ih =>
    rcases two_of_pton rfl hsrc h with ⟨rfl, rfl⟩ | ⟨v, hv, w, hw, src, rfl, h₂⟩
    · exact ⟨[], by simp, rfl⟩
    · have hsrc₂ : ∀ c ∈ src, isSpace c = false ∧ c ≠ '\x00' := fun c hc =>
        hsrc c (List.mem_cons_of_mem _ (List.mem_cons_of_mem _ hc))
      simp only [Pton.push, first_byte v hw] at h₂
      rcases rest_of_pton rfl hsrc₂ h₂ with ⟨x, hx, y, hy, src, rfl, h₄⟩ | ⟨x, hx, rfl, hx', rfl⟩ |
        ⟨rfl, hw', rfl⟩
      · have hsrc₄ : ∀ c ∈ src, isSpace c = false ∧ c ≠ '\x00' := fun c hc =>
          hsrc₂ c (List.mem_cons_of_mem _ (List.mem_cons_of_mem _ hc))
        have hshorter : src.length < n := by
          rw [← hn]
          simp only [List.length_cons]
          omega
        simp only [Pton.push, second_byte w hx, third_byte x hy] at h₄
        obtain ⟨bs, hbs, rfl⟩ := ih _ hshorter src hsrc₄ h₄ rfl
        refine ⟨UInt8.ofNat (v * 4 + w / 16) :: UInt8.ofNat (w % 16 * 16 + x / 4) ::
          UInt8.ofNat (x % 4 * 64 + y) :: bs, by simp [hbs], ?_⟩
        rw [ntop_three, hbyte (by omega), hbyte (by omega), hbyte (by omega)]
        congr <;> omega
      · simp only [Pton.push, Nat.and_two_pow_sub_one_eq_mod x 2, Nat.shiftLeft_eq] at hx'
        refine ⟨[UInt8.ofNat (v * 4 + w / 16), UInt8.ofNat (w % 16 * 16 + x / 4)],
          by simp [Pton.push, second_byte w hx], ?_⟩
        rw [ntop_two, hbyte (by omega), hbyte (by omega)]
        congr <;> omega
      · simp only [Nat.and_two_pow_sub_one_eq_mod w 4, Nat.shiftLeft_eq] at hw'
        refine ⟨[UInt8.ofNat (v * 4 + w / 16)], rfl, ?_⟩
        rw [ntop_one, hbyte (by omega)]
        congr <;> omega

/-- Binary data is read from a text iff the text, without its white space, is what is written of
the data. -/
theorem readBase64_iff (hnul : '\x00' ∉ src) :
    readBase64 src = some bs ↔ withoutSpace src = mcommonB64Ntop bs := by
  have hplain : ∀ c ∈ withoutSpace src, isSpace c = false ∧ c ≠ '\x00' := by
    intro c hc
    obtain ⟨hmem, hspace⟩ := List.mem_filter.mp hc
    exact ⟨by simpa using hspace, fun h => hnul (h ▸ hmem)⟩
  have hlen : pton mongocB64PtonLenStep Prod.fst (fun _ => true) (.first, 0) (withoutSpace src) =
      pton mongocB64PtonLenStep Prod.fst (fun _ => true) (.first, 0) src :=
    pton_withoutSpace _ _
  rw [readBase64, mongocB64PtonLen, ← hlen]
  constructor
  · intro h
    obtain ⟨n, -, h⟩ := Option.bind_eq_some_iff.mp h
    rw [mongocB64PtonDo, ← pton_withoutSpace] at h
    obtain ⟨st, hst, rfl⟩ := Option.map_eq_some_iff.mp h
    obtain ⟨bs, hbs, hntop⟩ := ntop_of_ptonDo _ hplain hst
    rw [hbs]
    exact hntop
  · intro h
    rw [h, ptonLen_ntop, Option.bind_some, mongocB64PtonDo, ← pton_withoutSpace, h, Nat.zero_add]
    exact ptonDo_ntop bs [] 0 (Nat.lt_of_le_of_lt (Nat.zero_add _).le (Nat.lt_succ_self _))

theorem readBase64_hello : readBase64 "SGVs bG8=".toList = some [72, 101, 108, 108, 111] :=
  (readBase64_iff (by decide)).mpr (by decide)

end Mongolite
