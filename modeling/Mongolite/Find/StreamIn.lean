import Mongolite.Find.NextPage
import Mongolite.Library.Pages
import Mathlib.Data.List.Pairwise
import Mathlib.Data.List.Sort

/-! # Streaming a query into R

`mongo_stream_in` reads pages until one is shorter than the page size. The
default handler keeps the pages in an environment under the text of the running
count and puts them back in the order of these numbers.
-/

namespace Mongolite

variable {δ β σ : Type} {toR : δ → β} {docs : List δ} {failure : Option String} {n fuel : ℕ}

/-- The loop of `mongo_stream_in`; `none` means that it did not end within `fuel` rounds. -/
def streamPages (toR : δ → β) (pagesize : Numeric) (cb : List β → σ → Except String σ) :
    ℕ → Cursor δ → σ → Option (Except String σ × Cursor δ)
  | 0, _, _ => none
  | fuel + 1, cur, s =>
    match rMongoCursorNextPage toR pagesize cur with
    | (.error e, cur') => some (.error e, cur')
    | (.ok page, cur') =>
      match if page.length = 0 then .ok s else cb page s with
      | .error e => some (.error e, cur')
      | .ok s' =>
        match pagesize.exceeds page.length with
        | none => some (.error "missing value where TRUE/FALSE needed", cur')
        | some true => some (.ok s', cur')
        | some false => streamPages toR pagesize cb fuel cur' s'

abbrev PageEnv (β : Type) := List (NumberText × List β)

def PageEnv.assign (env : PageEnv β) (key : NumberText) (page : List β) : PageEnv β :=
  env.filter (fun entry => entry.1 ≠ key) ++ [(key, page)]

/-- The default handler: store a page under the number of documents so far. -/
def storePage (page : List β) (s : ℕ × PageEnv β) : ℕ × PageEnv β :=
  let count := s.1 + page.length
  (count, PageEnv.assign s.2 (asCharacter count) page)

/-- `unlist(out[order(as.numeric(names(out)))], FALSE, FALSE)`. -/
def reassemble (out : PageEnv β) : List β :=
  ((out.mergeSort fun a b => decide (asNumeric a.1 ≤ asNumeric b.1)).map Prod.snd).flatten

/-- `mongo_stream_in` with the default handler, up to `post_process`; `asList` is the order in which
`as.list` happens to list an environment. -/
def mongoStreamIn (toR : δ → β) (asList : PageEnv β → PageEnv β) (pagesize : Numeric) (fuel : ℕ)
    (cur : Cursor δ) : Option (Except String (List β) × Cursor δ) :=
  match streamPages toR pagesize (fun page s => .ok (storePage page s)) fuel cur (0, []) with
  | none => none
  | some (.error e, cur') => some (.error e, cur')
  | some (.ok (_, env), cur') => some (.ok (reassemble (asList env)), cur')

/-- `mongo_stream_in` with a user handler, which gets the pages after `post_process`. -/
def mongoStreamInWith (toR : δ → β) (handler : List β → σ → Except String σ) (pagesize : Numeric)
    (fuel : ℕ) (cur : Cursor δ) (s : σ) : Option (Except String σ × Cursor δ) :=
  streamPages toR pagesize handler fuel cur s

/-- Hand pages to a callback in turn, up to the first that raises. -/
def handOver (cb : List β → σ → Except String σ) : List (List β) → σ → Except String σ
  | [], s => .ok s
  | p :: ps, s =>
    match cb p s with
    | .error e => .error e
    | .ok s' => handOver cb ps s'

def endingIn {α : Type} (failure : Option String) (x : Except String α) : Except String α :=
  match failure, x with
  | none, x => x
  | some e, .ok _ => .error e
  | some _, .error e => .error e

/-- The pages handed over: all of them, or the full ones where the cursor fails. -/
def pagesBefore (failure : Option String) (n : ℕ) (xs : List β) : List (List β) :=
  if failure = none then pages n xs else (pages n xs).filter fun p => p.length = n

theorem streamPages_fresh (toR : δ → β) (hn : 0 < n) (hmax : n < 2 ^ 31)
    (cb : List β → σ → Except String σ) (s : σ) (hfuel : docs.length < fuel) :
    ∃ cur', streamPages toR (.real n) cb fuel (.fresh docs failure) s =
        some (endingIn failure (handOver cb (pagesBefore failure n (docs.map toR)) s), cur') ∧
      cur'.late = 0 := by
  induction fuel generalizing docs s with
  | zero => exact absurd hfuel (Nat.not_lt_zero _)
  | succ fuel ih =>
    rw [streamPages]
    rcases Nat.lt_or_ge docs.length n with hlt | hge
    · rw [nextPage_last hmax hlt]
      cases failure with
      | some e =>
        refine ⟨⟨[], some e, true, some e, 0⟩, ?_, rfl⟩
        rcases eq_or_ne docs [] with rfl | hne
        · simp [pagesBefore, handOver, endingIn]
        · have hne' : docs.map toR ≠ [] := by simpa using hne
          rw [pagesBefore, pages_of_length_le hne' (by simpa using hlt.le)]
          simp [hlt.ne, handOver, endingIn]
      | none =>
        have hex : Numeric.exceeds (.real n) (docs.map toR).length = some true := by
          simp [Numeric.exceeds_natCast, hlt]
        refine ⟨⟨[], none, true, none, 0⟩, ?_, rfl⟩
        rcases eq_or_ne docs [] with rfl | hne
        · simp only [hex]
          simp [pagesBefore, handOver, endingIn]
        · have hne' : docs.map toR ≠ [] := by simpa using hne
          simp only [hex, List.length_eq_zero_iff, hne', if_false]
          rw [pagesBefore, if_pos rfl, pages_of_length_le hne' (by simpa using hlt.le)]
          cases hcb : cb (docs.map toR) s with
          | error e => simp [handOver, hcb, endingIn]
          | ok s' => simp [handOver, hcb, endingIn]
    · rw [nextPage_full hn hmax hge]
      have hlen : ((docs.take n).map toR).length = n := by simp [hge]
      have hex : Numeric.exceeds (.real n) n = some false := by simp [Numeric.exceeds_natCast]
      have hne : docs.map toR ≠ [] := by
        rw [← List.length_pos_iff, List.length_map]
        omega
      have hpages : pagesBefore failure n (docs.map toR) =
          (docs.take n).map toR :: pagesBefore failure n ((docs.drop n).map toR) := by
        unfold pagesBefore
        rw [pages_cons hn hne, List.map_take, List.map_drop]
        split
        · rfl
        · rw [List.filter_cons_of_pos]
          simpa using hge
      simp only [hlen, hn.ne', if_false, hpages, handOver]
      cases hcb : cb ((docs.take n).map toR) s with
      | error e =>
        refine ⟨.fresh (docs.drop n) failure, ?_, rfl⟩
        cases failure <;> rfl
      | ok s' =>
        have hdrop : (docs.drop n).length < fuel := by
          rw [List.length_drop]
          omega
        obtain ⟨cur', hrun, hlate⟩ := ih s' hdrop
        refine ⟨cur', ?_, hlate⟩
        simpa only [hex] using hrun

/-! ## The default handler -/

def stored : ℕ → List (List β) → PageEnv β
  | _, [] => []
  | count, p :: ps => (asCharacter (count + p.length), p) :: stored (count + p.length) ps

theorem lt_of_mem_stored {count : ℕ} {ps : List (List β)} (hne : ∀ p ∈ ps, p ≠ [])
    {entry : NumberText × List β} (h : entry ∈ stored count ps) : count < asNumeric entry.1 := by
  induction ps generalizing count with
  | nil => simp [stored] at h
  | cons p ps ih =>
    have hp : 0 < p.length := List.length_pos_iff.mpr (hne p List.mem_cons_self)
    rcases List.mem_cons.mp h with rfl | h
    · simpa using hp
    · have := ih (fun q hq => hne q (List.mem_cons_of_mem p hq)) h
      omega

theorem pairwise_stored (count : ℕ) {ps : List (List β)} (hne : ∀ p ∈ ps, p ≠ []) :
    (stored count ps).Pairwise fun a b => asNumeric a.1 < asNumeric b.1 := by
  induction ps generalizing count with
  | nil => exact .nil
  | cons p ps ih =>
    have hps : ∀ q ∈ ps, q ≠ [] := fun q hq => hne q (List.mem_cons_of_mem p hq)
    refine .cons (fun entry h => ?_) (ih _ hps)
    simpa using lt_of_mem_stored hps h

theorem map_snd_stored (count : ℕ) (ps : List (List β)) : (stored count ps).map Prod.snd = ps := by
  induction ps generalizing count with
  | nil => rfl
  | cons p ps ih => rw [stored, List.map_cons, ih]

theorem assign_of_new {env : PageEnv β} {key : NumberText} (page : List β)
    (h : ∀ entry ∈ env, entry.1 ≠ key) : env.assign key page = env ++ [(key, page)] := by
  have hf : env.filter (fun entry => decide (entry.1 ≠ key)) = env :=
    List.filter_eq_self.mpr fun entry he => by simpa using h entry he
  rw [PageEnv.assign, hf]

/-- No page is overwritten: every key is new when it is used. -/
theorem handOver_storePage {ps : List (List β)} (hne : ∀ p ∈ ps, p ≠ []) (count : ℕ)
    (env : PageEnv β) (henv : ∀ entry ∈ env, asNumeric entry.1 ≤ count) :
    ∃ count', handOver (fun page s => .ok (storePage page s)) ps (count, env) =
      .ok (count', env ++ stored count ps) := by
  induction ps generalizing count env with
  | nil => exact ⟨count, by simp [handOver, stored]⟩
  | cons p ps ih =>
    have hp : 0 < p.length := List.length_pos_iff.mpr (hne p List.mem_cons_self)
    have hnew : ∀ entry ∈ env, entry.1 ≠ asCharacter (count + p.length) := by
      intro entry he hkey
      have := henv entry he
      rw [hkey, asNumeric_asCharacter] at this
      omega
    obtain ⟨count', hrun⟩ := ih (fun q hq => hne q (List.mem_cons_of_mem p hq))
      (count + p.length) (env ++ [(asCharacter (count + p.length), p)]) (by
        intro entry he
        rcases List.mem_append.mp he with he | he
        · exact (henv entry he).trans (Nat.le_add_right _ _)
        · obtain rfl := List.mem_singleton.mp he
          simp)
    refine ⟨count', ?_⟩
    have hstore : storePage p (count, env) =
        (count + p.length, env ++ [(asCharacter (count + p.length), p)]) := by
      simp only [storePage, assign_of_new p hnew]
    rw [handOver, hstore]
    simp only [hrun, stored, List.append_assoc, List.singleton_append]

/-- Sorting by the numeric keys undoes any reordering of the environment. -/
theorem reassemble_perm {ps : List (List β)} (hne : ∀ p ∈ ps, p ≠ []) {out : PageEnv β}
    (h : out.Perm (stored 0 ps)) : reassemble out = ps.flatten := by
  have hsorted : (stored 0 ps).Pairwise fun a b => asNumeric a.1 ≤ asNumeric b.1 :=
    (pairwise_stored 0 hne).imp fun hab => hab.le
  have hsymm : Std.Symm fun a b : NumberText × List β => asNumeric a.1 ≠ asNumeric b.1 :=
    ⟨fun _ _ => Ne.symm⟩
  have hdistinct : (stored 0 ps).Pairwise fun a b => asNumeric a.1 ≠ asNumeric b.1 :=
    (pairwise_stored 0 hne).imp fun hab => hab.ne
  have hout : (out.mergeSort fun a b => decide (asNumeric a.1 ≤ asNumeric b.1)) = stored 0 ps := by
    refine List.Perm.eq_of_pairwise (fun a b ha hb hab hba => ?_) ?_ hsorted
      ((List.mergeSort_perm out _).trans h)
    · -- two entries with the same number are the same entry
      by_contra hab'
      have ha' : a ∈ stored 0 ps := h.mem_iff.mp (List.mem_mergeSort.mp ha)
      exact hdistinct.forall ha' hb hab' (le_antisymm hab hba)
    · refine (List.pairwise_mergeSort (fun a b c hab hbc => ?_) (fun a b => ?_) out).imp
        fun hab => of_decide_eq_true hab
      · exact decide_eq_true ((of_decide_eq_true hab).trans (of_decide_eq_true hbc))
      · simpa using le_total (asNumeric a.1) (asNumeric b.1)
  rw [reassemble, hout, map_snd_stored]

/-- What `mongo_stream_in` does with a user handler: where the cursor ends, the handler gets the
documents in full pages and a last one; the call returns iff the cursor ends, if the handler
itself never raises. -/
structure HandsOver (docs : List β) (failure : Option String) (n : ℕ)
    (handler : List β → σ → Except String σ) (s : σ) (out : Except String σ) : Prop where
  pages : failure = none → ∃ ps : List (List β), ps.flatten = docs ∧
    (∀ p ∈ ps.dropLast, p.length = n) ∧ out = handOver handler ps s
  returns : (∀ p s, ∃ s', handler p s = .ok s') → ((∃ s', out = .ok s') ↔ failure = none)

theorem handOver_ok {handler : List β → σ → Except String σ}
    (h : ∀ p s, ∃ s', handler p s = .ok s') (ps : List (List β)) (s : σ) :
    ∃ s', handOver handler ps s = .ok s' := by
  induction ps generalizing s with
  | nil => exact ⟨s, rfl⟩
  | cons p ps ih =>
    obtain ⟨s₁, hs₁⟩ := h p s
    obtain ⟨s₂, hs₂⟩ := ih s₁
    exact ⟨s₂, by rw [handOver, hs₁]; exact hs₂⟩

theorem handsOver_endingIn (hn : 0 < n) (failure : Option String) (xs : List β)
    (handler : List β → σ → Except String σ) (s : σ) :
    HandsOver xs failure n handler s
      (endingIn failure (handOver handler (pagesBefore failure n xs) s)) := by
  constructor
  · rintro rfl
    exact ⟨pages n xs, flatten_pages hn xs, length_of_mem_dropLast_pages hn, rfl⟩
  · intro hok
    obtain ⟨s', hs'⟩ := handOver_ok hok (pagesBefore failure n xs) s
    rw [hs']
    cases failure <;> simp [endingIn]

/-- For every page size from 1 to `2 ^ 31 - 1`, the result is complete and in order, or the
failure of the cursor is raised, and the cursor is not advanced after its end. -/
theorem mongoStreamIn_complete (toR : δ → β) {asList : PageEnv β → PageEnv β}
    (hlist : ∀ env, (asList env).Perm env) (hn : 0 < n) (hmax : n < 2 ^ 31) (docs : List δ)
    (failure : Option String) (hfuel : docs.length < fuel) :
    (∃ cur', mongoStreamIn toR asList (.real n) fuel (.fresh docs failure) =
        some (endingIn failure (.ok (docs.map toR)), cur') ∧ cur'.late = 0) ∧
      ∀ (σ : Type) (handler : List β → σ → Except String σ) (s : σ), ∃ out cur',
        mongoStreamInWith toR handler (.real n) fuel (.fresh docs failure) s = some (out, cur') ∧
          cur'.late = 0 ∧ HandsOver (docs.map toR) failure n handler s out := by
  constructor
  · obtain ⟨cur', hrun, hlate⟩ := streamPages_fresh toR hn hmax
      (fun page s => .ok (storePage page s)) (0, []) hfuel
    refine ⟨cur', ?_, hlate⟩
    rw [mongoStreamIn, hrun]
    have hne : ∀ p ∈ pagesBefore failure n (docs.map toR), p ≠ [] := by
      unfold pagesBefore
      split
      · exact page_ne_nil hn
      · exact fun p hp => page_ne_nil hn p (List.mem_of_mem_filter hp)
    obtain ⟨count, hho⟩ := handOver_storePage hne 0 [] (by simp)
    rw [hho]
    cases failure with
    | some e => rfl
    | none =>
      simp only [endingIn, List.nil_append]
      rw [reassemble_perm hne (hlist _), pagesBefore, if_pos rfl, flatten_pages hn]
  · intro σ handler s
    obtain ⟨cur', hrun, hlate⟩ := streamPages_fresh toR hn hmax handler s hfuel
    exact ⟨_, cur', hrun, hlate, handsOver_endingIn hn failure _ handler s⟩

theorem mongoStreamIn_pages_of_two :
    (∃ cur', mongoStreamIn id List.reverse (.real (2 : ℕ)) 4 (.fresh ["a", "b", "c"] none) =
        some (endingIn none (.ok (["a", "b", "c"].map id)), cur') ∧ cur'.late = 0) ∧
      ∀ (σ : Type) (handler : List String → σ → Except String σ) (s : σ), ∃ out cur',
        mongoStreamInWith id handler (.real (2 : ℕ)) 4 (.fresh ["a", "b", "c"] none) s =
          some (out, cur') ∧
          cur'.late = 0 ∧ HandsOver (["a", "b", "c"].map id) none 2 handler s out :=
  mongoStreamIn_complete id List.reverse_perm (by decide) (by decide) ["a", "b", "c"] none
    (by decide)

/-- A page size of `2 ^ 31` is `NA` as an `int`, and raises although the cursor ends. -/
theorem mongoStreamIn_two_pow_31 : ¬ ∃ fuel xs cur',
    mongoStreamIn (id : String → String) id (.real (2 ^ 31)) fuel (.fresh [] none) =
      some (.ok xs, cur') := by
  rintro ⟨_ | fuel, xs, cur', h⟩
  · simp [mongoStreamIn, streamPages] at h
  · have hna : Numeric.asInteger (.real (2 ^ 31)) = none := by simp [Numeric.asInteger]
    simp [mongoStreamIn, streamPages, rMongoCursorNextPage, hna] at h

end Mongolite
