import Mathlib.Algebra.BigOperators.Group.List.Basic
import Mathlib.Data.List.Forall2
import Mongolite.Find.NextPage

/-! # Iterators

The methods of an iterator read pages of any size from one cursor and differ in
what they make of a page. A page that falls short of its size completes the
cursor, and a completed cursor cannot be advanced again.
-/

namespace Mongolite

variable {δ β τ : Type}

/-- What the methods make of documents: `bson2list`, `bson_to_str`, and the data frame that
`as.data.frame(jsonlite:::simplify(..))` makes of the records of a page. -/
structure IterPost (δ β τ : Type) where
  bson2list : δ → β
  bsonToStr : δ → String
  simplify : List β → Except String τ

inductive IterCall
  | one
  | batch (size : ℕ)
  | json (size : ℕ)
  | page (size : ℕ)
  deriving DecidableEq, Repr

def IterCall.size : IterCall → ℕ
  | one => 1
  | batch size => size
  | json size => size
  | page size => size

/-- What a call returns; the missing record and the empty list of records are `NULL`. -/
inductive IterResult (β τ : Type)
  | record (r : Option β)
  | records (rs : List β)
  | lines (ls : List String)
  | table (t : τ)

def withPage (toR : δ → β) (size : ℕ) {ρ : Type} (make : List β → Except String ρ)
    (cur : Cursor δ) : Except String ρ × Cursor δ :=
  let (page, cur') := rMongoCursorNextPage toR (.real size) cur
  (page.bind make, cur')

def iterCall (post : IterPost δ β τ) (call : IterCall) (cur : Cursor δ) :
    Except String (IterResult β τ) × Cursor δ :=
  match call with
  -- `NULL[[1]]` is `NULL`
  | .one => withPage post.bson2list 1 (fun rs => .ok (.record rs.head?)) cur
  | .batch size => withPage post.bson2list size (fun rs => .ok (.records rs)) cur
  | .json size => withPage post.bsonToStr size (fun ls => .ok (.lines ls)) cur
  | .page size => withPage post.bson2list size (fun rs => (post.simplify rs).map .table) cur

def iterCalls (post : IterPost δ β τ) :
    List IterCall → Cursor δ → Except String (List (IterResult β τ)) × Cursor δ
  | [], cur => (.ok [], cur)
  | call :: calls, cur =>
    match iterCall post call cur with
    | (.error e, cur') => (.error e, cur')
    | (.ok r, cur') =>
      let (rs, cur'') := iterCalls post calls cur'
      (rs.map (r :: ·), cur'')

variable {post : IterPost δ β τ} {toR : δ → β} {docs : List δ} {failure : Option String}
  {n : ℕ} {cur cur' : Cursor δ} {call : IterCall} {calls : List IterCall}

def Cursor.ended : Cursor δ := ⟨[], none, true, none, 0⟩

/-- The cursor over these documents after pages of `size` documents in all, none of which failed:
it is where they end, or it has reported its end. -/
def Cursor.after (docs : List δ) (failure : Option String) (size : ℕ) : Cursor δ :=
  if size ≤ docs.length then .fresh (docs.drop size) failure else .ended

@[simp] theorem Cursor.after_zero (docs : List δ) (failure : Option String) :
    Cursor.after docs failure 0 = .fresh docs failure := by
  simp [Cursor.after]

theorem nextPage_zero (toR : δ → β) (cur : Cursor δ) :
    (rMongoCursorNextPage toR (.real (0 : ℕ)) cur).2 = cur ∧
      ∀ page, (rMongoCursorNextPage toR (.real (0 : ℕ)) cur).1 = .ok page → page = [] := by
  rw [rMongoCursorNextPage, Numeric.asInteger_natCast (by decide)]
  simp only [Int.toNat_natCast, advance, mongocCursorError]
  cases cur.error with
  | some e => simp
  | none => simp

theorem nextPage_of_two_pow_le (toR : δ → β) (cur : Cursor δ) (h : 2 ^ 31 ≤ n) :
    rMongoCursorNextPage toR (.real n) cur =
      (.error "negative length vectors are not allowed", cur) := by
  have hna : Numeric.asInteger (.real n) = none := by
    rw [Numeric.asInteger, if_pos]
    left
    exact_mod_cast h
  rw [rMongoCursorNextPage, hna]

theorem nextPage_ended (toR : δ → β) (hn : 0 < n) :
    ∃ e, (rMongoCursorNextPage toR (.real n) (.ended : Cursor δ)).1 = .error e := by
  rcases Nat.lt_or_ge n (2 ^ 31) with hmax | hbig
  · obtain ⟨m, rfl⟩ := Nat.exists_eq_succ_of_ne_zero hn.ne'
    refine ⟨"Cannot advance a completed or failed cursor.", ?_⟩
    rw [rMongoCursorNextPage, Numeric.asInteger_natCast hmax]
    have hneg : ¬ ((m.succ : ℕ) : ℤ) < 0 := by omega
    simp only [Int.toNat_natCast, hneg, if_false]
    simp [advance, mongocCursorNext, Cursor.ended, mongocCursorError]
  · exact ⟨_, by rw [nextPage_of_two_pow_le toR _ hbig]⟩

/-- A page that is returned has as many of the documents left as its size allows. -/
theorem nextPage_ok {page : List β} {size : ℕ}
    (h : rMongoCursorNextPage toR (.real n) (.after docs failure size) = (.ok page, cur')) :
    page = ((docs.drop size).take n).map toR ∧ cur' = .after docs failure (size + n) := by
  rcases Nat.eq_zero_or_pos n with rfl | hn
  · obtain ⟨hcur', hpage⟩ := nextPage_zero toR (.after docs failure size)
    rw [h] at hcur' hpage
    exact ⟨hpage page rfl, hcur'⟩
  · rcases Nat.lt_or_ge n (2 ^ 31) with hmax | hbig
    · unfold Cursor.after at h
      split_ifs at h with hsize
      · have hlen : (docs.drop size).length = docs.length - size := List.length_drop
        rcases Nat.lt_or_ge (docs.drop size).length n with hlt | hge
        · rw [nextPage_last hmax hlt] at h
          cases failure with
          | some e => simp at h
          | none =>
            obtain ⟨hpage, rfl⟩ := Prod.mk.inj h
            rw [List.take_of_length_le hlt.le, Cursor.after, if_neg (by omega)]
            exact ⟨(Except.ok.inj hpage).symm, rfl⟩
        · rw [nextPage_full hn hmax hge] at h
          obtain ⟨hpage, rfl⟩ := Prod.mk.inj h
          rw [Cursor.after, if_pos (by omega), List.drop_drop]
          exact ⟨(Except.ok.inj hpage).symm, rfl⟩
      · obtain ⟨e, he⟩ := nextPage_ended toR hn (δ := δ)
        rw [h] at he
        cases he
    · rw [nextPage_of_two_pow_le toR _ hbig] at h
      cases h

inductive CoversDocs (post : IterPost δ β τ) : List δ → IterResult β τ → Prop
  | record (ds : List δ) (h : ds.length ≤ 1) :
      CoversDocs post ds (.record (ds.map post.bson2list).head?)
  | records (ds : List δ) : CoversDocs post ds (.records (ds.map post.bson2list))
  | lines (ds : List δ) : CoversDocs post ds (.lines (ds.map post.bsonToStr))
  | table (ds : List δ) (t : τ) (h : post.simplify (ds.map post.bson2list) = .ok t) :
      CoversDocs post ds (.table t)

theorem withPage_ok {ρ : Type} {make : List β → Except String ρ} {r : ρ} {size : ℕ}
    (h : withPage toR n make (.after docs failure size) = (.ok r, cur')) :
    make (((docs.drop size).take n).map toR) = .ok r ∧
      cur' = .after docs failure (size + n) := by
  rcases hp : rMongoCursorNextPage toR (.real n) (.after docs failure size) with ⟨e | page, c⟩
  · simp [withPage, hp, Except.bind] at h
  · simp only [withPage, hp, Except.bind] at h
    obtain ⟨hmake, rfl⟩ := Prod.mk.inj h
    obtain ⟨rfl, hrest⟩ := nextPage_ok hp
    exact ⟨hmake, hrest⟩

theorem iterCall_ok {r : IterResult β τ} {size : ℕ}
    (h : iterCall post call (.after docs failure size) = (.ok r, cur')) :
    CoversDocs post ((docs.drop size).take call.size) r ∧
      cur' = .after docs failure (size + call.size) := by
  unfold iterCall at h
  cases call with
  | one =>
    obtain ⟨hmake, hrest⟩ := withPage_ok h
    obtain rfl := Except.ok.inj hmake
    exact ⟨.record _ (List.length_take_le 1 _), hrest⟩
  | batch n =>
    obtain ⟨hmake, hrest⟩ := withPage_ok h
    obtain rfl := Except.ok.inj hmake
    exact ⟨.records _, hrest⟩
  | json n =>
    obtain ⟨hmake, hrest⟩ := withPage_ok h
    obtain rfl := Except.ok.inj hmake
    exact ⟨.lines _, hrest⟩
  | page n =>
    obtain ⟨hmake, hrest⟩ := withPage_ok h
    cases ht : post.simplify (((docs.drop size).take n).map post.bson2list) with
    | error e =>
      rw [ht] at hmake
      cases hmake
    | ok t =>
      rw [ht] at hmake
      obtain rfl := Except.ok.inj hmake
      exact ⟨.table _ _ ht, hrest⟩

def deal : List ℕ → List δ → List (List δ)
  | [], _ => []
  | n :: ns, ds => ds.take n :: deal ns (ds.drop n)

/-- Nothing is skipped or repeated. -/
theorem flatten_deal (ns : List ℕ) (ds : List δ) : (deal ns ds).flatten = ds.take ns.sum := by
  induction ns generalizing ds with
  | nil => simp [deal]
  | cons n ns ih => rw [deal, List.flatten_cons, ih, List.sum_cons, List.take_add]

theorem iterCalls_ok {rs : List (IterResult β τ)} {size : ℕ}
    (h : iterCalls post calls (.after docs failure size) = (.ok rs, cur')) :
    List.Forall₂ (CoversDocs post) (deal (calls.map IterCall.size) (docs.drop size)) rs ∧
      cur' = .after docs failure (size + (calls.map IterCall.size).sum) := by
  induction calls generalizing size rs with
  | nil =>
    obtain ⟨hrs, rfl⟩ := Prod.mk.inj h
    obtain rfl := Except.ok.inj hrs
    exact ⟨.nil, rfl⟩
  | cons call calls ih =>
    rcases hc : iterCall post call (.after docs failure size) with ⟨e | r, c⟩
    · simp [iterCalls, hc] at h
    · rcases hcs : iterCalls post calls c with ⟨e | rs', c'⟩
      · simp [iterCalls, hc, hcs, Except.map] at h
      · obtain ⟨hcover, rfl⟩ := iterCall_ok hc
        simp only [iterCalls, hc, hcs, Except.map] at h
        obtain ⟨hrs, rfl⟩ := Prod.mk.inj h
        obtain rfl := Except.ok.inj hrs
        obtain ⟨hcovers, hend⟩ := ih hcs
        rw [← List.drop_drop] at hcovers
        rw [List.map_cons, List.sum_cons, ← Nat.add_assoc]
        exact ⟨.cons hcover hcovers, hend⟩

theorem iterCall_zero (post : IterPost δ β τ) (cur : Cursor δ) (h : call.size = 0) :
    (iterCall post call cur).2 = cur := by
  unfold iterCall
  cases call with
  | one => cases h
  | batch size =>
    obtain rfl : size = 0 := h
    exact (nextPage_zero post.bson2list cur).1
  | json size =>
    obtain rfl : size = 0 := h
    exact (nextPage_zero post.bsonToStr cur).1
  | page size =>
    obtain rfl : size = 0 := h
    exact (nextPage_zero post.bson2list cur).1

/-- As long as no call raises, calls of any kind and size share one position: each gets the next
documents, as many as its size, and together they get the first documents of the cursor. -/
theorem iterCalls_share_position (post : IterPost δ β τ) (docs : List δ)
    (failure : Option String) (calls : List IterCall) {rs : List (IterResult β τ)}
    {cur' : Cursor δ} (h : iterCalls post calls (.fresh docs failure) = (.ok rs, cur')) :
    List.Forall₂ (CoversDocs post) (deal (calls.map IterCall.size) docs) rs ∧
      (deal (calls.map IterCall.size) docs).flatten =
        docs.take (calls.map IterCall.size).sum ∧
      ∀ (call : IterCall) (cur : Cursor δ), call.size = 0 → (iterCall post call cur).2 = cur := by
  rw [← Cursor.after_zero] at h
  exact ⟨(iterCalls_ok h).1, flatten_deal _ docs, fun _ cur h => iterCall_zero post cur h⟩

/-- Documents that are texts, records that are the same texts, and tables that are lists. -/
def textPost : IterPost String String (List String) := ⟨id, id, .ok⟩

theorem iterCalls_share_position_mixed :
    List.Forall₂ (CoversDocs textPost) (deal [2, 0, 1, 3] ["a", "b", "c", "d"])
        [.records ["a", "b"], .table [], .record (some "c"), .lines ["d"]] ∧
      (deal [2, 0, 1, 3] ["a", "b", "c", "d"]).flatten =
        ["a", "b", "c", "d"].take [2, 0, 1, 3].sum ∧
      ∀ (call : IterCall) (cur : Cursor String), call.size = 0 →
        (iterCall textPost call cur).2 = cur :=
  iterCalls_share_position textPost ["a", "b", "c", "d"] none
    [.batch 2, .page 0, .one, .json 3] rfl

/-! ## After the end -/

/-- Every call returns the empty result: `NULL`, no lines, or the table of no records. -/
def EndsQuietly (post : IterPost δ β τ) (calls : List IterCall) (cur : Cursor δ) : Prop :=
  ∃ rs cur', iterCalls post calls cur = (.ok rs, cur') ∧ ∀ r ∈ rs, CoversDocs post [] r

theorem withPage_of_error {ρ : Type} (make : List β → Except String ρ)
    (h : ∃ e, (rMongoCursorNextPage toR (.real n) cur).1 = .error e) :
    ∃ e c, withPage toR n make cur = (.error e, c) := by
  obtain ⟨e, he⟩ := h
  exact ⟨e, _, Prod.ext (by simp [withPage, he, Except.bind]) rfl⟩

theorem withPage_of_nil {ρ : Type} (make : List β → Except String ρ) {c : Cursor δ}
    (h : rMongoCursorNextPage toR (.real n) cur = (.ok [], c)) :
    withPage toR n make cur = (make [], c) := by
  rw [withPage, h]
  rfl

theorem iterCall_of_error (post : IterPost δ β τ) (cur : Cursor δ)
    (h : ∀ (ρ : Type) (toR : δ → ρ),
      ∃ e, (rMongoCursorNextPage toR (.real call.size) cur).1 = .error e) :
    ∃ e c, iterCall post call cur = (.error e, c) := by
  unfold iterCall
  cases call with
  | one => exact withPage_of_error _ (h β post.bson2list)
  | batch n => exact withPage_of_error _ (h β post.bson2list)
  | json n => exact withPage_of_error _ (h String post.bsonToStr)
  | page n => exact withPage_of_error _ (h β post.bson2list)

theorem iterCall_of_nil (hnull : ∃ t, post.simplify [] = .ok t) {c : Cursor δ}
    (h : ∀ (ρ : Type) (toR : δ → ρ),
      rMongoCursorNextPage toR (.real call.size) cur = (.ok [], c)) :
    ∃ r, iterCall post call cur = (.ok r, c) ∧ CoversDocs post [] r := by
  unfold iterCall
  cases call with
  | one => exact ⟨.record none, withPage_of_nil _ (h β post.bson2list), .record [] (Nat.zero_le 1)⟩
  | batch n => exact ⟨.records [], withPage_of_nil _ (h β post.bson2list), .records []⟩
  | json n => exact ⟨.lines [], withPage_of_nil _ (h String post.bsonToStr), .lines []⟩
  | page n =>
    obtain ⟨t, ht⟩ := hnull
    refine ⟨.table t, (withPage_of_nil _ (h β post.bson2list)).trans ?_, .table [] t ht⟩
    rw [ht]
    rfl

/-- The first call after the last document finds the end. -/
theorem nextPage_at_end (toR : δ → β) (docs : List δ) (hmax : n < 2 ^ 31) (hn : 0 < n) :
    rMongoCursorNextPage toR (.real n) (.after docs none docs.length) = (.ok [], .ended) := by
  rw [Cursor.after, if_pos (Nat.le_refl _), List.drop_length,
    nextPage_last hmax (by simpa using hn)]
  rfl

/-- After all documents are consumed, further calls return the empty result iff there is none, or
just one and the calls before it asked for exactly as many documents as there are. -/
theorem iterCalls_after_end (post : IterPost δ β τ) (hnull : ∃ t, post.simplify [] = .ok t)
    (docs : List δ) (calls further : List IterCall)
    (hpos : ∀ call ∈ calls ++ further, 0 < call.size) {rs : List (IterResult β τ)}
    {cur' : Cursor δ} (h : iterCalls post calls (.fresh docs none) = (.ok rs, cur'))
    (hall : docs.length ≤ (calls.map IterCall.size).sum) :
    EndsQuietly post further cur' ↔ further = [] ∨
      ((calls.map IterCall.size).sum = docs.length ∧
        ∃ call, further = [call] ∧ call.size < 2 ^ 31) := by
  rw [← Cursor.after_zero] at h
  obtain ⟨-, rfl⟩ := iterCalls_ok h
  rw [Nat.zero_add]
  generalize (calls.map IterCall.size).sum = total at hall
  have hended : ∀ call ∈ further, ∃ e c, iterCall post call (.ended : Cursor δ) = (.error e, c) :=
    fun call hcall => iterCall_of_error post _ fun ρ toR =>
      nextPage_ended toR (hpos call (List.mem_append_right _ hcall))
  constructor
  · rintro ⟨rs', cur', hrun, -⟩
    rcases further with _ | ⟨call, further⟩
    · exact .inl rfl
    · refine .inr ?_
      rcases Nat.lt_or_ge docs.length total with hlt | hge
      · -- the last page was short, so the cursor is completed
        obtain ⟨e, c, he⟩ := hended call List.mem_cons_self
        rw [Cursor.after, if_neg (Nat.not_le_of_lt hlt)] at hrun
        simp [iterCalls, he] at hrun
      obtain rfl : total = docs.length := le_antisymm hge hall
      have hcall : 0 < call.size := hpos call (by simp)
      rcases Nat.lt_or_ge call.size (2 ^ 31) with hmax | hbig
      · refine ⟨rfl, call, ?_, hmax⟩
        rcases further with _ | ⟨call', further⟩
        · rfl
        · obtain ⟨r, hr, -⟩ := iterCall_of_nil hnull fun ρ toR =>
            nextPage_at_end toR docs hmax hcall
          obtain ⟨e, c, he⟩ := hended call' (by simp)
          simp [iterCalls, hr, he, Except.map] at hrun
      · obtain ⟨e, c, he⟩ := iterCall_of_error post (.after docs none docs.length)
          fun ρ toR => ⟨_, by rw [nextPage_of_two_pow_le toR _ hbig]⟩
        simp [iterCalls, he] at hrun
  · rintro (rfl | ⟨rfl, call, rfl, hmax⟩)
    · exact ⟨[], _, rfl, by simp⟩
    · have hcall : 0 < call.size := hpos call (by simp)
      obtain ⟨r, hr, hcover⟩ := iterCall_of_nil hnull fun ρ toR =>
        nextPage_at_end toR docs hmax hcall
      refine ⟨[r], .ended, by simp [iterCalls, hr, Except.map], ?_⟩
      simpa using hcover

theorem iterCalls_after_full_page :
    EndsQuietly textPost [.json 5] (.after ["a", "b"] none 2) ↔ [IterCall.json 5] = [] ∨
      (([IterCall.one, .batch 1].map IterCall.size).sum = ["a", "b"].length ∧
        ∃ call, [IterCall.json 5] = [call] ∧ call.size < 2 ^ 31) :=
  iterCalls_after_end textPost ⟨[], rfl⟩ ["a", "b"] [.one, .batch 1] [.json 5] (by decide) rfl
    (by decide)

/-- The same call again raises once the last page was short. -/
theorem not_endsQuietly_after_short_page :
    iterCalls textPost [.batch 2] (.fresh ["a"] none) =
        (.ok [.records ["a"]], .after ["a"] none 2) ∧
      ¬ EndsQuietly textPost [.batch 2] (.after ["a"] none 2) := by
  refine ⟨rfl, ?_⟩
  rintro ⟨rs, cur', hrun, -⟩
  have herr : iterCalls textPost [.batch 2] (.after ["a"] none 2) =
      (.error "Cannot advance a completed or failed cursor.",
        ⟨[], none, true, some "Cannot advance a completed or failed cursor.", 1⟩) := rfl
  rw [herr] at hrun
  cases hrun

end Mongolite
