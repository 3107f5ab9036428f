import Mathlib.Data.Rat.Floor
import Mongolite.Find.StreamIn

/-! # Page sizes that are not whole

A page is fetched with the page size as an `int`, but its length is compared
with the number itself. A fractional size ends the loop after its first page, and
the size zero never ends it.
-/

namespace Mongolite

variable {δ β σ : Type} {toR : δ → β} {docs : List δ} {size size' : Numeric} {q : ℚ}
  {cb : List β → σ → Except String σ} {s : σ} {fuel : ℕ}

def Numeric.NonNegative : Numeric → Prop
  | real q => 0 ≤ q
  | posInf => True
  | negInf | nan => False

/-- What a page size is for: `mongo_stream_in` ends, and unless it raises it has delivered every
document of the cursor, into its result or to the handler. -/
structure PageSizeWorks (toR : δ → β) (size : Numeric) (docs : List δ) : Prop where
  imported : ∀ asList, (∀ env, (asList env).Perm env) → ∃ out rounds, ∀ fuel ≥ rounds,
    (∃ cur', mongoStreamIn toR asList size fuel (.fresh docs none) = some (out, cur')) ∧
      ∀ xs, out = .ok xs → xs = docs.map toR
  handled : ∀ (σ : Type) (handler : List β → σ → Except String σ) (s : σ),
    ∃ out rounds, ∀ fuel ≥ rounds,
      (∃ cur', mongoStreamInWith toR handler size fuel (.fresh docs none) s = some (out, cur')) ∧
        ∀ s', out = .ok s' →
          ∃ ps : List (List β), ps.flatten = docs.map toR ∧ handOver handler ps s = .ok s'

/-- The size is too large for an `int`, so that it raises, or whole and not zero, or no smaller than
the number of documents. -/
def Workable : Numeric → ℕ → Prop
  | .real q, count => 2 ^ 31 ≤ q ∨ (1 ≤ q ∧ ∃ n : ℕ, q = n) ∨ ((∀ n : ℕ, q ≠ n) ∧ (count : ℚ) ≤ q)
  | _, _ => True

/-- The loop ends after pages that hold these elements, with any callback. -/
def HandsOverAll (toR : δ → β) (size : Numeric) (docs : List δ) (xs : List β) : Prop :=
  ∃ (ps : List (List β)) (rounds : ℕ), (∀ p ∈ ps, p ≠ []) ∧ ps.flatten = xs ∧
    ∀ fuel ≥ rounds, ∀ (σ : Type) (cb : List β → σ → Except String σ) (s : σ),
      ∃ cur', streamPages toR size cb fuel (.fresh docs none) s = some (handOver cb ps s, cur')

theorem asInteger_floor (h₀ : 0 ≤ q) (hmax : q < 2 ^ 31) :
    Numeric.asInteger (.real q) = some (⌊q⌋₊ : ℤ) := by
  have hlow : ¬ q ≤ -2 ^ 31 := not_le.mpr (lt_of_lt_of_le (by norm_num) h₀)
  have hnum : 0 ≤ q.num := Rat.num_nonneg.mpr h₀
  have hfloor : ⌊q⌋ = q.num / q.den := Rat.floor_def q
  rw [Numeric.asInteger, if_neg (not_or.mpr ⟨not_le.mpr hmax, hlow⟩),
    Int.tdiv_eq_ediv_of_nonneg hnum, Int.natCast_floor_eq_floor h₀, hfloor]

theorem floor_lt_two_pow (hmax : q < 2 ^ 31) : ⌊q⌋₊ < 2 ^ 31 := by
  apply (Nat.floor_lt' (by decide)).mpr
  exact_mod_cast hmax

theorem nextPage_congr (h : size.asInteger = size'.asInteger) (c : Cursor δ) :
    rMongoCursorNextPage toR size c = rMongoCursorNextPage toR size' c := by
  rw [rMongoCursorNextPage, h, rMongoCursorNextPage]

theorem nextPage_none (docs : List δ) (h : size.asInteger = some 0) :
    rMongoCursorNextPage toR size (.fresh docs none) = (.ok [], .fresh docs none) := by
  rw [rMongoCursorNextPage, h]
  rfl

theorem nextPage_floor (toR : δ → β) (docs : List δ) (h₀ : 0 ≤ q) (hmax : q < 2 ^ 31) :
    ∃ cur', rMongoCursorNextPage toR (.real q) (.fresh docs none) =
      (.ok ((docs.take ⌊q⌋₊).map toR), cur') := by
  have hint := asInteger_floor h₀ hmax
  have hm := floor_lt_two_pow hmax
  rcases Nat.eq_zero_or_pos ⌊q⌋₊ with hzero | hpos
  · rw [hzero] at hint ⊢
    exact ⟨_, nextPage_none docs hint⟩
  · rw [nextPage_congr (hint.trans (Numeric.asInteger_natCast hm).symm)]
    rcases Nat.lt_or_ge docs.length ⌊q⌋₊ with hlt | hge
    · rw [List.take_of_length_le hlt.le]
      exact ⟨_, nextPage_last hm hlt⟩
    · exact ⟨_, nextPage_full hpos hm hge⟩

theorem streamPages_of_na (h : size.asInteger = none) (cur : Cursor δ) :
    streamPages toR size cb (fuel + 1) cur s =
      some (.error "negative length vectors are not allowed", cur) := by
  rw [streamPages, rMongoCursorNextPage, h]

theorem streamPages_zero (fuel : ℕ) (s : σ) :
    streamPages toR (.real 0) cb fuel (.fresh docs none) s = none := by
  induction fuel with
  | zero => rfl
  | succ fuel ih =>
    rw [streamPages, nextPage_none docs (by rfl)]
    exact ih

/-- A page is shorter than a fractional size, also where it is as long as the size allows. -/
theorem exceeds_floor (h₀ : 0 ≤ q) (hfraction : ∀ n : ℕ, q ≠ n) {xs : List β}
    (h : xs.length ≤ ⌊q⌋₊) : Numeric.exceeds (.real q) xs.length = some true := by
  have hlt : (⌊q⌋₊ : ℚ) < q := lt_of_le_of_ne (Nat.floor_le h₀) (hfraction _).symm
  have hle : (xs.length : ℚ) ≤ ⌊q⌋₊ := by exact_mod_cast h
  rw [Numeric.exceeds, decide_eq_true (hle.trans_lt hlt)]

/-- A fractional size ends the loop after the first page. -/
theorem handsOverAll_fraction (toR : δ → β) (docs : List δ) (h₀ : 0 ≤ q) (hmax : q < 2 ^ 31)
    (hfraction : ∀ n : ℕ, q ≠ n) :
    HandsOverAll toR (.real q) docs ((docs.take ⌊q⌋₊).map toR) := by
  obtain ⟨cur', hpage⟩ := nextPage_floor toR docs h₀ hmax
  generalize hxs : (docs.take ⌊q⌋₊).map toR = xs at hpage
  have hlen : xs.length ≤ ⌊q⌋₊ := by
    rw [← hxs, List.length_map]
    exact List.length_take_le _ _
  have hends := exceeds_floor h₀ hfraction hlen
  refine ⟨pages (⌊q⌋₊ + 1) xs, 1, ?_, ?_, ?_⟩
  · exact page_ne_nil (Nat.succ_pos _)
  · exact flatten_pages (Nat.succ_pos _) xs
  · intro fuel hfuel σ cb s
    obtain ⟨fuel, rfl⟩ := Nat.exists_eq_add_of_le' hfuel
    refine ⟨cur', ?_⟩
    simp only [streamPages, hpage, hends]
    rcases eq_or_ne xs [] with rfl | hne
    · simp [handOver]
    · have hpos : xs.length ≠ 0 := fun h => hne (List.length_eq_zero_iff.mp h)
      rw [if_neg hpos, pages_of_length_le hne (by omega)]
      cases hcb : cb xs s <;> simp [handOver, hcb]

theorem handsOverAll_whole (toR : δ → β) (docs : List δ) {n : ℕ} (hn : 0 < n) (hmax : n < 2 ^ 31) :
    HandsOverAll toR (.real n) docs (docs.map toR) := by
  refine ⟨pages n (docs.map toR), docs.length + 1, page_ne_nil hn, flatten_pages hn _, ?_⟩
  intro fuel hfuel σ cb s
  obtain ⟨cur', hrun, -⟩ := streamPages_fresh toR hn hmax cb s hfuel
  exact ⟨cur', hrun⟩

theorem HandsOverAll.works_iff {xs : List β} (h : HandsOverAll toR size docs xs) :
    PageSizeWorks toR size docs ↔ xs = docs.map toR := by
  obtain ⟨ps, rounds, hne, rfl, hrun⟩ := h
  have himport : ∀ fuel ≥ rounds, ∀ asList, (∀ env, (asList env).Perm env) → ∃ cur',
      mongoStreamIn toR asList size fuel (.fresh docs none) = some (.ok ps.flatten, cur') := by
    intro fuel hfuel asList hlist
    obtain ⟨cur', hpages⟩ := hrun fuel hfuel _ (fun page s => .ok (storePage page s)) (0, [])
    obtain ⟨count, hstored⟩ := handOver_storePage hne 0 [] (by simp)
    refine ⟨cur', ?_⟩
    rw [mongoStreamIn, hpages, hstored]
    simp only [List.nil_append, reassemble_perm hne (hlist _)]
  constructor
  · intro hworks
    obtain ⟨out, rounds', hout⟩ := hworks.imported id fun env => .refl env
    obtain ⟨⟨cur', hends⟩, hall⟩ := hout (max rounds rounds') (le_max_right _ _)
    obtain ⟨cur'', hends'⟩ := himport (max rounds rounds') (le_max_left _ _) id fun env => .refl env
    obtain ⟨rfl, -⟩ := Prod.mk.inj (Option.some.inj (hends.symm.trans hends'))
    exact hall _ rfl
  · intro hall
    constructor
    · intro asList hlist
      refine ⟨.ok ps.flatten, rounds, fun fuel hfuel => ⟨himport fuel hfuel asList hlist, ?_⟩⟩
      rintro xs ⟨⟩
      exact hall
    · intro σ handler s
      refine ⟨handOver handler ps s, rounds, fun fuel hfuel => ⟨hrun fuel hfuel σ handler s, ?_⟩⟩
      exact fun s' hs' => ⟨ps, hall, hs'⟩

theorem pageSizeWorks_of_na (docs : List δ) (h : size.asInteger = none) :
    PageSizeWorks toR size docs := by
  constructor
  · intro asList _
    refine ⟨.error "negative length vectors are not allowed", 1, fun fuel hfuel => ⟨?_, ?_⟩⟩
    · obtain ⟨fuel, rfl⟩ := Nat.exists_eq_add_of_le' hfuel
      exact ⟨_, by rw [mongoStreamIn, streamPages_of_na h]⟩
    · rintro xs ⟨⟩
  · intro σ handler s
    refine ⟨.error "negative length vectors are not allowed", 1, fun fuel hfuel => ⟨?_, ?_⟩⟩
    · obtain ⟨fuel, rfl⟩ := Nat.exists_eq_add_of_le' hfuel
      exact ⟨_, by rw [mongoStreamInWith, streamPages_of_na h]⟩
    · rintro s' ⟨⟩

theorem not_pageSizeWorks_zero (docs : List δ) : ¬ PageSizeWorks toR (.real 0) docs := by
  intro hworks
  obtain ⟨out, rounds, hout⟩ := hworks.imported id fun env => .refl env
  obtain ⟨⟨cur', hends⟩, -⟩ := hout rounds (le_refl _)
  rw [mongoStreamIn, streamPages_zero] at hends
  cases hends

theorem take_map_eq_iff (toR : δ → β) (docs : List δ) (n : ℕ) :
    (docs.take n).map toR = docs.map toR ↔ docs.length ≤ n := by
  constructor
  · intro h
    have hlen := congrArg List.length h
    rw [List.length_map, List.length_map, List.length_take] at hlen
    omega
  · intro h
    rw [List.take_of_length_le h]

theorem workable_whole {n : ℕ} (count : ℕ) (hmax : (n : ℚ) < 2 ^ 31) :
    Workable (.real n) count ↔ 0 < n := by
  have hwhole : ∃ m : ℕ, (n : ℚ) = m := ⟨n, rfl⟩
  have hfraction : ¬ ∀ m : ℕ, (n : ℚ) ≠ m := fun h => h n rfl
  simp only [Workable, not_le.mpr hmax, hwhole, hfraction, and_true, false_and, or_false, false_or,
    Nat.one_le_cast, Nat.succ_le_iff]

theorem workable_fraction (count : ℕ) (h₀ : 0 ≤ q) (hmax : q < 2 ^ 31)
    (hfraction : ∀ n : ℕ, q ≠ n) : Workable (.real q) count ↔ count ≤ ⌊q⌋₊ := by
  rw [Nat.le_floor_iff h₀]
  constructor
  · rintro (hlarge | ⟨-, n, hn⟩ | ⟨-, hle⟩)
    · exact absurd hlarge (not_le.mpr hmax)
    · exact absurd hn (hfraction n)
    · exact hle
  · exact fun hle => .inr (.inr ⟨hfraction, hle⟩)

/-- A page size works iff it raises, or is whole and not zero, or the documents are so few that the
first page has them all. -/
theorem pageSizeWorks_iff (toR : δ → β) (docs : List δ) (h : size.NonNegative) :
    PageSizeWorks toR size docs ↔ Workable size docs.length := by
  cases size with
  | posInf | negInf | nan => exact iff_of_true (pageSizeWorks_of_na docs rfl) trivial
  | real q =>
    have h₀ : 0 ≤ q := h
    rcases le_or_gt (2 ^ 31) q with hlarge | hmax
    · refine iff_of_true (pageSizeWorks_of_na docs ?_) (.inl hlarge)
      rw [Numeric.asInteger, if_pos (.inl hlarge)]
    by_cases hwhole : ∃ n : ℕ, q = n
    · obtain ⟨n, rfl⟩ := hwhole
      rw [workable_whole docs.length hmax]
      rcases Nat.eq_zero_or_pos n with rfl | hpos
      · exact iff_of_false (not_pageSizeWorks_zero docs) (lt_irrefl 0)
      · have hn : n < 2 ^ 31 := by exact_mod_cast hmax
        exact iff_of_true ((handsOverAll_whole toR docs hpos hn).works_iff.mpr rfl) hpos
    · have hfraction : ∀ n : ℕ, q ≠ n := fun n hn => hwhole ⟨n, hn⟩
      rw [(handsOverAll_fraction toR docs h₀ hmax hfraction).works_iff, take_map_eq_iff,
        workable_fraction docs.length h₀ hmax hfraction]

theorem pageSizeWorks_five_halves :
    PageSizeWorks (id : String → String) (.real (5 / 2)) ["a", "b"] ↔ Workable (.real (5 / 2)) 2 :=
  pageSizeWorks_iff id ["a", "b"] (by norm_num [Numeric.NonNegative])

/-- Pages of two and a half end after two documents of three, and pages of zero never end. -/
theorem not_pageSizeWorks_five_halves :
    ¬ PageSizeWorks (id : String → String) (.real (5 / 2)) ["a", "b", "c"] ∧
      ∀ fuel, mongoStreamIn (id : String → String) id (.real 0) fuel (.fresh [] none) = none := by
  constructor
  · have hfraction : ∀ n : ℕ, (5 / 2 : ℚ) ≠ n := by
      intro n hn
      have htwice : (5 : ℚ) = (2 * n : ℕ) := by
        push_cast
        linarith
      have : 5 = 2 * n := by exact_mod_cast htwice
      omega
    have hmax : (5 / 2 : ℚ) < 2 ^ 31 := by norm_num
    rw [(handsOverAll_fraction id _ (by norm_num) hmax hfraction).works_iff, take_map_eq_iff,
      Nat.le_floor_iff (by norm_num)]
    norm_num
  · intro fuel
    rw [mongoStreamIn, streamPages_zero]

end Mongolite
