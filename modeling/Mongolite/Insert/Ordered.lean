import Mongolite.Insert.StreamOut

/-! # Stopping on the first error leaves a prefix

With `stop_on_error = TRUE` the rows in the collection after `mongo_stream_out`
are exactly the first `k` rows. `k` is the number of rows unless an error is
raised, and when every row can be encoded it is the position of the first row
the server refuses, whatever the page size. A page is one message here, which is
what makes the driver stop at that row.
-/

namespace Mongolite

variable {ρ δ : Type}

/-- Exactly the first `k` rows went in: what the call returned or raised, and why. -/
structure InsertsPrefix (c : Codec ρ δ) (gate : Gate δ String) (n : ℕ) (rows : List ρ)
    (w : World δ) (out : Except Failure Summary × World δ) (k : ℕ) : Prop where
  encodable : c.Encodable (rows.take k)
  docs : out.2.docs = w.docs ++ c.docsOf (rows.take k)
  accepted : gate.refusal w.docs (c.docsOf (rows.take k)) = none
  returned : ∀ s, out.1 = .ok s → k = rows.length ∧ s.nInserted = rows.length
  raised : ∀ e, out.1 = .error e → k < rows.length
  refused : ∀ e, out.1 = .error e → c.Encodable rows →
    ∃ text, e = .raised text ∧ gate.refusal w.docs (c.docsOf rows) = some text
  admitted : c.Encodable rows → k = gate.admitted w.docs (c.docsOf rows)
  page : ∀ before p after, pages n rows = before ++ p :: after → ¬ c.Encodable p →
    k ≤ before.flatten.length

variable {c : Codec ρ δ} {gate : Gate δ String} {rows : List ρ} {w : World δ} {n : ℕ}

theorem refusal_take_admitted (g : Gate δ String) (db ds : List δ) :
    g.refusal db (ds.take (g.admitted db ds)) = none := by
  induction ds generalizing db with
  | nil => simp
  | cons d ds ih =>
    cases hd : g db d with
    | none => simpa [Gate.admitted, Gate.refusal, hd] using ih (db ++ [d])
    | some e => simp [Gate.admitted, hd]

/-- The first page raises: it is refused by the server at some row, or not encodable at all. -/
theorem InsertsPrefix.of_first_page_raised (hn : 0 < n) (hne : rows ≠ []) {e : Failure}
    {w' : World δ} (h : insertRows c gate.inOneMessage true (rows.take n) w = (.error e, w')) :
    ∃ k, InsertsPrefix c gate n rows w (.error e, w') k := by
  have hl : 0 < rows.length := List.length_pos_iff.mpr hne
  by_cases he : c.Encodable (rows.take n)
  · have hne' : rows.take n ≠ [] := by simp [hne, hn.ne']
    rw [insertRows_inOneMessage hne' he, orderedPage] at h
    cases hr : gate.refusal w.docs (c.docsOf (rows.take n)) with
    | none => simp [hr] at h
    | some e' =>
      simp only [hr, if_true, Prod.mk.injEq, Except.error.injEq] at h
      obtain ⟨rfl, rfl⟩ := h
      obtain ⟨hlt, -⟩ := gate.refusal_eq_some hr
      rw [length_docsOf he] at hlt
      have hk : gate.admitted w.docs (c.docsOf (rows.take n)) < rows.length :=
        hlt.trans_le (by simp)
      have hlen : gate.admitted w.docs (c.docsOf (rows.take n)) ≤ n :=
        hlt.le.trans (List.length_take_le n rows)
      have htake : rows.take (gate.admitted w.docs (c.docsOf (rows.take n))) =
          (rows.take n).take (gate.admitted w.docs (c.docsOf (rows.take n))) := by
        rw [List.take_take, min_eq_left hlen]
      have hall : ∀ es, gate.refusal w.docs (c.docsOf (rows.take n) ++ es) = some e' ∧
          gate.admitted w.docs (c.docsOf (rows.take n) ++ es) =
            gate.admitted w.docs (c.docsOf (rows.take n)) :=
        fun es => gate.refusal_append_of_some hr
      refine ⟨gate.admitted w.docs (c.docsOf (rows.take n)), ?_, ?_, ?_, by simp, fun _ _ => hk,
        ?_, ?_, ?_⟩
      · rw [htake]
        exact he.take _
      · rw [htake, ← take_docsOf he]
        rfl
      · rw [htake, ← take_docsOf he]
        exact refusal_take_admitted gate _ _
      · rintro e'' he'' -
        obtain rfl : .raised e' = e'' := by simpa using he''
        rw [docsOf_take_append_drop c rows n]
        exact ⟨e', rfl, (hall _).1⟩
      · intro _
        rw [docsOf_take_append_drop c rows n, (hall _).2]
      · intro before p after hp hnp
        rw [pages_cons hn hne] at hp
        cases before with
        | nil =>
          obtain ⟨rfl, -⟩ : rows.take n = p ∧ _ := by simpa using hp
          exact absurd he hnp
        | cons b bs =>
          obtain ⟨rfl, -⟩ : rows.take n = b ∧ _ := by simpa using hp
          simp only [List.flatten_cons, List.length_append]
          omega
  · obtain ⟨out, w'', ho, hd, -, -⟩ := insertRows_of_not_encodable gate.inOneMessage w true he
    obtain ⟨rfl, rfl⟩ : out = .error e ∧ w'' = w' := by simpa using ho.symm.trans h
    refine ⟨0, by simp [Codec.Encodable], by simp [hd, Codec.docsOf], by simp [Codec.docsOf],
      by simp, fun _ _ => hl, fun _ _ hall => absurd (hall.take n) he,
      fun hall => absurd (hall.take n) he, by simp⟩

theorem InsertsPrefix.of_first_page_inserted (hn : 0 < n) (hne : rows ≠ [])
    (he : c.Encodable (rows.take n))
    (hr : gate.refusal w.docs (c.docsOf (rows.take n)) = none)
    {out : Except Failure Summary × World δ} {r : Reply} {k : ℕ}
    (hi : r.nInserted = (rows.take n).length)
    (h : InsertsPrefix c gate n (rows.drop n)
      { w with docs := w.docs ++ c.docsOf (rows.take n) } out k) :
    InsertsPrefix c gate n rows w (out.1.map r.addTo, out.2) ((rows.take n).length + k) := by
  have hlen : (rows.take n).length + (rows.drop n).length = rows.length := by
    rw [← List.length_append, List.take_append_drop]
  have htake : rows.take ((rows.take n).length + k) = rows.take n ++ (rows.drop n).take k := by
    conv_lhs => rw [← List.take_append_drop n rows]
    rw [List.take_append, List.take_of_length_le (by simp)]
    simp
  have hdocs : c.docsOf rows = c.docsOf (rows.take n) ++ c.docsOf (rows.drop n) :=
    docsOf_take_append_drop c rows n
  refine ⟨?_, ?_, ?_, ?_, ?_, ?_, ?_, ?_⟩
  · rw [htake]
    intro x hx
    exact (List.mem_append.mp hx).elim (he x) (h.encodable x)
  · rw [htake, docsOf_append, ← List.append_assoc]
    exact h.docs
  · rw [htake, docsOf_append, gate.refusal_append_of_none hr]
    exact h.accepted
  · intro s hs
    cases ho : out.1 with
    | error e => simp [ho, Except.map] at hs
    | ok s' =>
      obtain rfl : r.addTo s' = s := by simpa [ho, Except.map] using hs
      obtain ⟨h₁, h₂⟩ := h.returned s' ho
      constructor
      · omega
      · rw [nInserted_addTo, hi, h₂, hlen]
  · intro e hs
    cases ho : out.1 with
    | ok s => simp [ho, Except.map] at hs
    | error e' =>
      have := h.raised e' ho
      omega
  · intro e hs hall
    cases ho : out.1 with
    | ok s => simp [ho, Except.map] at hs
    | error e' =>
      obtain rfl : e' = e := by simpa [ho, Except.map] using hs
      rw [hdocs, gate.refusal_append_of_none hr]
      exact h.refused e' ho (hall.drop n)
  · intro hall
    rw [hdocs, gate.admitted_append_of_none hr, length_docsOf he, h.admitted (hall.drop n)]
  · intro before p after hp hnp
    rw [pages_cons hn hne] at hp
    cases before with
    | nil =>
      obtain ⟨rfl, -⟩ : rows.take n = p ∧ _ := by simpa using hp
      exact absurd he hnp
    | cons b bs =>
      obtain ⟨rfl, hp'⟩ : rows.take n = b ∧ pages n (rows.drop n) = bs ++ p :: after := by
        simpa using hp
      have := h.page bs p after hp' hnp
      simp only [List.flatten_cons, List.length_append]
      omega

/-- An insert with `stop_on_error = TRUE` leaves exactly the first rows in the collection. -/
theorem mongoStreamOut_stopOnError (c : Codec ρ δ) (gate : Gate δ String) (rows : List ρ)
    (w : World δ) (hn : 0 < n) :
    ∃ k, InsertsPrefix c gate n rows w (mongoStreamOut c gate.inOneMessage rows n true w) k := by
  induction rows using pages_induction hn generalizing w with
  | nil =>
    refine ⟨0, ?_⟩
    rw [mongoStreamOut_nil]
    exact ⟨by simp [Codec.Encodable], by simp [Codec.docsOf], by simp [Codec.docsOf],
      fun s hs => by obtain rfl := Except.ok.inj hs; exact ⟨rfl, rfl⟩, by simp, by simp,
      by simp [Codec.docsOf], by simp⟩
  | page rows hne ih =>
    by_cases he : c.Encodable (rows.take n)
    · have hne' : rows.take n ≠ [] := by simp [hne, hn.ne']
      have hpage : insertRows c gate.inOneMessage true (rows.take n) w = _ :=
        insertRows_inOneMessage hne' he
      rw [orderedPage] at hpage
      cases hr : gate.refusal w.docs (c.docsOf (rows.take n)) with
      | some e =>
        simp only [hr, if_true] at hpage
        rw [mongoStreamOut_of_error hn hne hpage]
        exact InsertsPrefix.of_first_page_raised hn hne hpage
      | none =>
        have ha := (gate.refusal_eq_none_iff w.docs _).mp hr
        simp only [hr, Gate.offerUntil, ha, List.take_length] at hpage
        obtain ⟨k, hk⟩ := ih { w with docs := w.docs ++ c.docsOf (rows.take n) }
        rw [mongoStreamOut_of_reply hn hne hpage]
        exact ⟨_, InsertsPrefix.of_first_page_inserted hn hne he hr (length_docsOf he) hk⟩
    · obtain ⟨out, w', ho, -, hraise, -⟩ := insertRows_of_not_encodable gate.inOneMessage w true he
      obtain ⟨e, rfl⟩ := hraise rfl
      rw [mongoStreamOut_of_error hn hne ho]
      exact InsertsPrefix.of_first_page_raised hn hne ho

theorem mongoStreamOut_stopOnError_duplicate :
    ∃ k, InsertsPrefix plainText uniqueIndex 2 ["a", "b", "a", "c"] ⟨[], []⟩
      (mongoStreamOut plainText uniqueIndex.inOneMessage ["a", "b", "a", "c"] 2 true ⟨[], []⟩) k :=
  mongoStreamOut_stopOnError plainText uniqueIndex ["a", "b", "a", "c"] ⟨[], []⟩ (by decide)

end Mongolite
