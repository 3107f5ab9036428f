import Mongolite.Insert.StreamOut

/-! # Inserting past errors

With `stop_on_error = FALSE` every document is meant to be attempted, but the
bulk operation of a page is created with the default options and is therefore
ordered. Every document is attempted exactly when, offered one by one, no
document but the last of its page is ever refused.
-/

namespace Mongolite

variable {ρ δ : Type}

/-- The counters of an insert's result, where it has them. -/
def Inserted.nInserted : Inserted → Option ℕ
  | .summary s => some s.nInserted
  | .page r => r.map Reply.nInserted
  | .success => none

def Inserted.writeErrors : Inserted → Option (List WriteError)
  | .summary s => some s.writeErrors
  | .page r => r.map Reply.writeErrors
  | .success => none

/-- Data frames and vectors of JSON objects that the client can encode, with their documents. -/
inductive Offers (c : Codec ρ δ) : InsertData ρ δ → List δ → Prop
  | dataFrame {rows : List ρ} : c.Encodable rows → Offers c (.dataFrame rows) (c.docsOf rows)
  | character {json : List String} : c.EncodableJson json → json.all c.validateJson = true →
      json.all startsWithBrace = true → Offers c (.character json) (c.docsOfJson json)

/-- Every document was tried: the collection holds exactly the documents accepted one by one,
`nInserted` counts them, and `writeErrors` has an entry for each of the others. -/
def AttemptsAll (gate : Gate δ String) (db docs : List δ)
    (out : Except Failure Inserted × World δ) : Prop :=
  out.2.docs = gate.offerAll db docs ∧
    ∃ r es, out.1 = .ok r ∧ r.nInserted = some (gate.accepted db docs) ∧
      r.writeErrors = some es ∧ gate.accepted db docs + es.length = docs.length

/-- How many documents go into one bulk operation. -/
def InsertData.bulkSize (pagesize : ℕ) (docs : List δ) : InsertData ρ δ → ℕ
  | .dataFrame _ => pagesize
  | _ => docs.length

/-- Offered one by one, only the last document of a bulk operation is ever refused; a vector
has to hold at least one document. -/
def RefusesOnlyLast (gate : Gate δ String) (db docs : List δ) (pagesize : ℕ)
    (data : InsertData ρ δ) : Prop :=
  data ≠ .character [] ∧
    ∀ p ∈ pages (data.bulkSize pagesize docs) (gate.verdicts db docs), Gate.OnlyLastRefused p

variable {c : Codec ρ δ} {gate : Gate δ String} {rows : List ρ} {w : World δ} {n : ℕ}

/-- One page with `stop_on_error = FALSE`: it accounts for every document iff only the last
one can be refused. -/
theorem orderedPage_continue (gate : Gate δ String) (ds : List δ) (w : World δ) :
    ∃ r w', orderedPage gate false ds w = (.ok (some r), w') ∧
      r.nInserted + r.writeErrors.length ≤ ds.length ∧
      (r.nInserted + r.writeErrors.length = ds.length ↔
        Gate.OnlyLastRefused (gate.verdicts w.docs ds)) ∧
      (Gate.OnlyLastRefused (gate.verdicts w.docs ds) →
        w'.docs = gate.offerAll w.docs ds ∧ r.nInserted = gate.accepted w.docs ds) := by
  rw [orderedPage, ← Gate.length_le_admitted_succ_iff]
  have hall : ds.length ≤ gate.admitted w.docs ds + 1 →
      gate.offerUntil w.docs ds = gate.offerAll w.docs ds ∧
        gate.admitted w.docs ds = gate.accepted w.docs ds :=
    fun h => gate.offerUntil_eq_offerAll ((gate.length_le_admitted_succ_iff _ _).mp h)
  cases hr : gate.refusal w.docs ds with
  | none =>
    have ha := (gate.refusal_eq_none_iff w.docs ds).mp hr
    refine ⟨_, _, rfl, ?_, ?_, hall⟩
    · simp [ha]
    · simp only [ha, List.length_nil]; omega
  | some e =>
    obtain ⟨hlt, -⟩ := gate.refusal_eq_some hr
    refine ⟨_, _, rfl, ?_, ?_, hall⟩
    · simp only [List.length_singleton]
      exact hlt
    · simp only [List.length_singleton]; omega

theorem verdicts_docsOf (gate : Gate δ String) (he : c.Encodable rows) (n : ℕ) (db : List δ) :
    (gate.verdicts db (c.docsOf rows)).take n = gate.verdicts db (c.docsOf (rows.take n)) ∧
      (gate.verdicts db (c.docsOf rows)).drop n =
        gate.verdicts (gate.offerAll db (c.docsOf (rows.take n))) (c.docsOf (rows.drop n)) := by
  rw [docsOf_take_append_drop c rows n, gate.verdicts_append]
  rcases Nat.lt_or_ge rows.length n with h | h
  · rw [List.drop_of_length_le h.le]
    have hl : (gate.verdicts db (c.docsOf (rows.take n))).length ≤ n := by
      rw [Gate.length_verdicts, length_docsOf (he.take n)]
      exact List.length_take_le n rows
    simp only [Codec.docsOf, List.filterMap_nil, Gate.verdicts_nil, List.append_nil]
    exact ⟨List.take_of_length_le hl, List.drop_of_length_le hl⟩
  · have hl : (gate.verdicts db (c.docsOf (rows.take n))).length = n := by
      rw [Gate.length_verdicts, length_docsOf (he.take n), List.length_take, min_eq_left h]
    exact ⟨List.take_left' hl, List.drop_left' hl⟩

/-- A data frame streamed out with `stop_on_error = FALSE` never raises, never counts a row
twice, and accounts for every row iff only last rows of pages can be refused. -/
theorem mongoStreamOut_continue (gate : Gate δ String) (hn : 0 < n) (he : c.Encodable rows)
    (w : World δ) :
    ∃ s w', mongoStreamOut c gate.inOneMessage rows n false w = (.ok s, w') ∧
      s.nInserted + s.writeErrors.length ≤ rows.length ∧
      (s.nInserted + s.writeErrors.length = rows.length →
        ∀ p ∈ pages n (gate.verdicts w.docs (c.docsOf rows)), Gate.OnlyLastRefused p) ∧
      ((∀ p ∈ pages n (gate.verdicts w.docs (c.docsOf rows)), Gate.OnlyLastRefused p) →
        w'.docs = gate.offerAll w.docs (c.docsOf rows) ∧
          s.nInserted = gate.accepted w.docs (c.docsOf rows) ∧
          s.nInserted + s.writeErrors.length = rows.length) := by
  induction rows using pages_induction hn generalizing w with
  | nil => exact ⟨_, _, mongoStreamOut_nil, by simp, by simp [Codec.docsOf],
      fun _ => ⟨rfl, rfl, rfl⟩⟩
  | page rows hne ih =>
    have hne' : rows.take n ≠ [] := by simp [hne, hn.ne']
    have hv : gate.verdicts w.docs (c.docsOf rows) ≠ [] := by
      rw [← List.length_pos_iff, Gate.length_verdicts, length_docsOf he]
      exact List.length_pos_iff.mpr hne
    have hlen : (rows.take n).length + (rows.drop n).length = rows.length := by
      rw [← List.length_append, List.take_append_drop]
    obtain ⟨r, w', hpage, hle, hiff, hlast⟩ :=
      orderedPage_continue gate (c.docsOf (rows.take n)) w
    rw [← insertRows_inOneMessage hne' (he.take n)] at hpage
    rw [length_docsOf (he.take n)] at hle hiff
    obtain ⟨s, w'', hs, hle', hnec, hsuf⟩ := ih (he.drop n) w'
    refine ⟨r.addTo s, w'', ?_, ?_, ?_, ?_⟩
    · rw [mongoStreamOut_of_reply hn hne hpage, hs]
      rfl
    · simp only [nInserted_addTo, writeErrors_addTo, List.length_append]
      omega
    · simp only [nInserted_addTo, writeErrors_addTo, List.length_append]
      intro hsum
      have hfirst := hiff.mp (by omega)
      obtain ⟨hd, -⟩ := hlast hfirst
      obtain ⟨ht, hdr⟩ := verdicts_docsOf gate he n w.docs
      rw [pages_cons hn hv, ht, hdr, ← hd]
      rintro p (_ | ⟨_, hp⟩)
      · exact hfirst
      · exact hnec (by omega) p hp
    · intro hp
      obtain ⟨ht, hdr⟩ := verdicts_docsOf gate he n w.docs
      rw [pages_cons hn hv, ht, hdr] at hp
      have hfirst := hp _ List.mem_cons_self
      obtain ⟨hd, hi⟩ := hlast hfirst
      obtain ⟨h₁, h₂, h₃⟩ := hsuf fun p hp' => hp p (List.mem_cons_of_mem _ (hd ▸ hp'))
      have hsum := hiff.mpr hfirst
      simp only [nInserted_addTo, writeErrors_addTo, List.length_append]
      rw [docsOf_take_append_drop c rows n, gate.offerAll_append, gate.accepted_append]
      refine ⟨?_, ?_, ?_⟩
      · rw [h₁, hd]
      · rw [hi, h₂, hd]
      · omega

/-- An insert with `stop_on_error = FALSE` attempts every document iff no document but the last
of its bulk operation is refused. -/
theorem insert_continueOnError_iff {data : InsertData ρ δ} {docs : List δ}
    (hn : 0 < n) (ho : Offers c data docs) (w : World δ) :
    AttemptsAll gate w.docs docs (insert c gate.inOneMessage data n false w) ↔
      RefusesOnlyLast gate w.docs docs n data := by
  cases ho with
  | @dataFrame rows he =>
    obtain ⟨s, w', hs, -, hnec, hsuf⟩ := mongoStreamOut_continue gate hn he w
    simp only [insert, hs, AttemptsAll, RefusesOnlyLast, InsertData.bulkSize, Except.map]
    constructor
    · rintro ⟨-, r, es, hr, hi, hes, hsum⟩
      obtain rfl := Except.ok.inj hr
      simp only [Inserted.nInserted, Inserted.writeErrors, Option.some.injEq] at hi hes
      subst hes
      rw [← hi, length_docsOf he] at hsum
      exact ⟨by simp, hnec hsum⟩
    · rintro ⟨-, hp⟩
      obtain ⟨h₁, h₂, h₃⟩ := hsuf hp
      refine ⟨h₁, _, _, rfl, congrArg some h₂, rfl, ?_⟩
      rw [← h₂, h₃, length_docsOf he]
  | @character json he hv hb =>
    cases json with
    | nil => simp [insert, rMongoCollectionInsertPage, AttemptsAll, RefusesOnlyLast, Except.map]
    | cons x xs =>
      have hl := length_docsOfJson he
      have hds : gate.verdicts w.docs (c.docsOfJson (x :: xs)) ≠ [] := by
        rw [← List.length_pos_iff, Gate.length_verdicts, hl]
        exact Nat.succ_pos _
      obtain ⟨r, w', hpage, -, hiff, hlast⟩ :=
        orderedPage_continue gate (c.docsOfJson (x :: xs)) w
      simp only [insert, hv, hb, Bool.not_true, Bool.false_eq_true, if_false,
        insertPage_of_encodable (List.cons_ne_nil x xs) he,
        bulkPage_inOneMessage, hpage, AttemptsAll, RefusesOnlyLast,
        InsertData.bulkSize, Except.map]
      rw [pages_of_length_le hds (by simp)]
      constructor
      · rintro ⟨-, r', es, hr, hi, hes, hsum⟩
        obtain rfl := Except.ok.inj hr
        simp only [Inserted.nInserted, Inserted.writeErrors, Option.map_some,
          Option.some.injEq] at hi hes
        subst hes
        rw [← hi] at hsum
        exact ⟨by simp, by simpa using hiff.mp hsum⟩
      · rintro ⟨-, hp⟩
        obtain ⟨h₁, h₂⟩ := hlast (hp _ (by simp))
        refine ⟨h₁, _, _, rfl, congrArg some h₂, rfl, ?_⟩
        rw [← h₂]
        exact hiff.mpr (hp _ (by simp))

/-- With pages of two the refused duplicate is the last row of its page, and nothing is lost. -/
theorem insert_continueOnError_pages_of_two :
    AttemptsAll uniqueIndex [] ["a", "a", "b"]
      (insert plainText uniqueIndex.inOneMessage (.dataFrame ["a", "a", "b"]) 2 false ⟨[], []⟩) :=
  (insert_continueOnError_iff (by decide) (.dataFrame (by decide)) ⟨[], []⟩).mpr
    ⟨by simp, by decide⟩

/-- The row after the refused duplicate is lost when it shares its page. -/
theorem insert_continueOnError_skips_row :
    ¬ AttemptsAll uniqueIndex [] ["a", "a", "b"]
      (insert plainText uniqueIndex.inOneMessage (.dataFrame ["a", "a", "b"]) 1000 false
        ⟨[], []⟩) := by
  rintro ⟨hdocs, -⟩
  revert hdocs
  decide

end Mongolite
