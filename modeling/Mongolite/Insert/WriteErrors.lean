import Mongolite.Insert.StreamOut

/-! # Which rows the write errors point at

The index of a write error is a position within its page. `mongo_stream_out`
puts the write errors of the pages in a row as they are, so an index is the
position of the row in the data frame on the first page and on no other. However
the driver cuts a page into messages, it adds their offsets within the page.
-/

namespace Mongolite

variable {ρ δ : Type}

def sentDocs (c : Codec ρ δ) (s : Server δ) (ps : List (List ρ)) : List δ :=
  ps.flatMap fun p => (s.send (c.docsOf p)).batches.flatten

/-- The positions of the rows that the server refuses when pages are offered in turn, each message
up to its first refused row; the pages start at position `offset`. -/
def rejectedRows (c : Codec ρ δ) (s : Server δ) : ℕ → List (List ρ) → List δ → List ℕ
  | _, [], _ => []
  | offset, p :: ps, db =>
    s.gate.refusedPositions offset (s.send (c.docsOf p)).batches db ++
      rejectedRows c s (offset + p.length) ps
        (s.gate.offerBatches (s.send (c.docsOf p)).batches db)

/-- The same rows as they are reported: each by its position in its page. -/
def reportedRows (c : Codec ρ δ) (s : Server δ) : List (List ρ) → List δ → List ℕ
  | [], _ => []
  | p :: ps, db =>
    s.gate.refusedPositions 0 (s.send (c.docsOf p)).batches db ++
      reportedRows c s ps (s.gate.offerBatches (s.send (c.docsOf p)).batches db)

/-- Where the call returns, its write errors point at the rows that were refused. -/
def PointsAtRejected (c : Codec ρ δ) (s : Server δ) (rows : List ρ) (n : ℕ) (w : World δ) : Prop :=
  ∀ out w', mongoStreamOut c s rows n false w = (.ok out, w') →
    out.writeErrors.map WriteError.index = rejectedRows c s 0 (pages n rows) w.docs

/-- After the first page has been offered, each of its messages up to its first refused row, no
row that is sent is refused. -/
def RejectsOnFirstPage (c : Codec ρ δ) (s : Server δ) (rows : List ρ) (n : ℕ)
    (db : List δ) : Prop :=
  s.gate.refusal (s.gate.offerBatches (s.send (c.docsOf (rows.take n))).batches db)
    (sentDocs c s (pages n (rows.drop n))) = none

/-- The driver gets every page sent, or fails to. -/
def SendsEnd (c : Codec ρ δ) (s : Server δ) (rows : List ρ) (n : ℕ) : Prop :=
  ∀ p ∈ pages n rows, (s.send (c.docsOf p)).failure ≠ some .unending

variable {c : Codec ρ δ} {s : Server δ} {rows : List ρ} {w : World δ} {n offset : ℕ}

theorem writeErrors_bulkPage (s : Server δ) {ds : List δ}
    (hsend : (s.send ds).failure ≠ some .unending) (w : World δ) :
    ∃ r w', bulkPage s false ds w = (.ok (some r), w') ∧
      r.writeErrors.map WriteError.index =
        s.gate.refusedPositions 0 (s.send ds).batches w.docs ∧
      w'.docs = s.gate.offerBatches (s.send ds).batches w.docs := by
  obtain ⟨hdocs, hindex⟩ := answerMessages_ordered s.gate 0 (s.send ds).batches w.docs
  have hended : (executeInserts s.gate true (s.send ds) w.docs).failure ≠ some .unending :=
    failureOf_eq_unending_iff.not.mpr hsend
  rw [bulkPage, finishPage]
  cases hfailure : (executeInserts s.gate true (s.send ds) w.docs).failure with
  | none => exact ⟨_, _, rfl, hindex, hdocs⟩
  | some failure =>
    cases failure with
    | raised e => exact ⟨_, _, rfl, hindex, hdocs⟩
    | unending => exact absurd hfailure hended

theorem bulkPage_of_unending {ds : List δ} (h : (s.send ds).failure = some .unending)
    (w : World δ) : ∃ w', bulkPage s false ds w = (.error .unending, w') := by
  rw [bulkPage, finishPage, executeInserts, h]
  exact ⟨_, rfl⟩

theorem SendsEnd.take (h : SendsEnd c s rows n) (hn : 0 < n) (hne : rows ≠ []) :
    (s.send (c.docsOf (rows.take n))).failure ≠ some .unending :=
  h _ (by rw [pages_cons hn hne]; exact List.mem_cons_self)

theorem SendsEnd.drop (h : SendsEnd c s rows n) (hn : 0 < n) (hne : rows ≠ []) :
    SendsEnd c s (rows.drop n) n :=
  fun p hp => h p (by rw [pages_cons hn hne]; exact List.mem_cons_of_mem _ hp)

theorem writeErrors_mongoStreamOut (s : Server δ) (hn : 0 < n) (he : c.Encodable rows)
    (hsend : SendsEnd c s rows n) (w : World δ) :
    ∃ out w', mongoStreamOut c s rows n false w = (.ok out, w') ∧
      out.writeErrors.map WriteError.index = reportedRows c s (pages n rows) w.docs := by
  induction rows using pages_induction hn generalizing w with
  | nil => exact ⟨_, _, mongoStreamOut_nil, by simp [reportedRows]⟩
  | page rows hne ih =>
    have hne' : rows.take n ≠ [] := by simp [hne, hn.ne']
    obtain ⟨r, w', hpage, hindex, hdocs⟩ := writeErrors_bulkPage s (hsend.take hn hne) w
    rw [← insertRows_of_encodable hne' (he.take n)] at hpage
    obtain ⟨out, w'', hrest, hrows⟩ := ih (he.drop n) (hsend.drop hn hne) w'
    refine ⟨r.addTo out, w'', ?_, ?_⟩
    · rw [mongoStreamOut_of_reply hn hne hpage, hrest]
      rfl
    · rw [writeErrors_addTo, List.map_append, hindex, hrows, pages_cons hn hne, reportedRows, hdocs]

theorem mongoStreamOut_of_unending (s : Server δ) (hn : 0 < n) (he : c.Encodable rows)
    (hsend : ¬ SendsEnd c s rows n) (w : World δ) :
    ∃ w', mongoStreamOut c s rows n false w = (.error .unending, w') := by
  induction rows using pages_induction hn generalizing w with
  | nil => exact absurd (by simp [SendsEnd]) hsend
  | page rows hne ih =>
    have hne' : rows.take n ≠ [] := by simp [hne, hn.ne']
    by_cases hfirst : (s.send (c.docsOf (rows.take n))).failure = some .unending
    · obtain ⟨w', hpage⟩ := bulkPage_of_unending hfirst w
      rw [← insertRows_of_encodable hne' (he.take n)] at hpage
      exact ⟨w', mongoStreamOut_of_error hn hne hpage⟩
    · have hdrop : ¬ SendsEnd c s (rows.drop n) n := by
        intro hrest
        refine hsend ?_
        rw [SendsEnd, pages_cons hn hne]
        rintro p (_ | ⟨_, hp⟩)
        · exact hfirst
        · exact hrest p hp
      obtain ⟨r, w', hpage, -⟩ := writeErrors_bulkPage s hfirst w
      rw [← insertRows_of_encodable hne' (he.take n)] at hpage
      obtain ⟨w'', hrest⟩ := ih (he.drop n) hdrop w'
      exact ⟨w'', by rw [mongoStreamOut_of_reply hn hne hpage, hrest]; rfl⟩

theorem mongoStreamOut_of_not_encodable (s : Server δ) (hn : 0 < n)
    (he : ¬ c.Encodable rows) (w : World δ) :
    ∃ e w', mongoStreamOut c s rows n false w = (.error e, w') := by
  induction rows using pages_induction hn generalizing w with
  | nil => exact absurd (by simp [Codec.Encodable]) he
  | page rows hne ih =>
    rw [mongoStreamOut_of_ne_nil hn hne]
    rcases hpage : insertRows c s false (rows.take n) w with ⟨e | reply, w'⟩
    · exact ⟨e, w', rfl⟩
    · by_cases htake : c.Encodable (rows.take n)
      · have hdrop : ¬ c.Encodable (rows.drop n) := by
          intro hdrop
          refine he fun r hr => ?_
          rw [← List.take_append_drop n rows] at hr
          exact (List.mem_append.mp hr).elim (htake r) (hdrop r)
        obtain ⟨e, w'', hrest⟩ := ih hdrop w'
        exact ⟨e, w'', by simp only [hrest]⟩
      · obtain ⟨out, w'', ho, -, -, hnone⟩ :=
          insertRows_of_not_encodable s w false htake
        obtain ⟨rfl, rfl⟩ := Prod.mk.inj (hpage.symm.trans ho)
        obtain rfl := hnone reply rfl
        rcases hrest : mongoStreamOut c s (rows.drop n) n false w' with ⟨e | total, w''⟩
        · exact ⟨e, w'', by simp only [hrest]⟩
        · exact ⟨.raised "values must be length 1", w'', by simp only [hrest]⟩

theorem refusedPositions_add (gate : Gate δ String) (offset k : ℕ) (bs : List (List δ))
    (db : List δ) : gate.refusedPositions (offset + k) bs db =
      (gate.refusedPositions k bs db).map (offset + ·) := by
  induction bs generalizing k db with
  | nil => rfl
  | cons b bs ih =>
    simp only [Gate.refusedPositions, Nat.add_assoc offset, ih, List.map_append]
    cases gate.refusal db b <;> rfl

theorem eq_nil_of_map_add (hoffset : 0 < offset) {xs : List ℕ} (h : xs = xs.map (offset + ·)) :
    xs = [] := by
  cases xs with
  | nil => rfl
  | cons x xs =>
    have hhead : x = offset + x := (List.cons.inj h).1
    omega

/-- Past the first page, reported positions are wrong as soon as there is one. -/
theorem reportedRows_eq_iff (ps : List (List ρ)) (db : List δ) (hoffset : 0 < offset) :
    reportedRows c s ps db = rejectedRows c s offset ps db ↔
      s.gate.refusal db (sentDocs c s ps) = none := by
  induction ps generalizing db offset with
  | nil => simp [reportedRows, rejectedRows, sentDocs]
  | cons p ps ih =>
    have hsent : sentDocs c s (p :: ps) =
        (s.send (c.docsOf p)).batches.flatten ++ sentDocs c s ps := rfl
    have hshift := refusedPositions_add s.gate offset 0 (s.send (c.docsOf p)).batches db
    rw [Nat.add_zero] at hshift
    rw [hsent, reportedRows, rejectedRows, hshift]
    cases hr : s.gate.refusal db (s.send (c.docsOf p)).batches.flatten with
    | none =>
      have hnil := (refusedPositions_eq_nil_iff s.gate 0 _ db).mpr hr
      rw [hnil, s.gate.refusal_append_of_none hr, offerBatches_of_admitted s.gate hr]
      exact ih _ (by omega)
    | some e =>
      rw [(s.gate.refusal_append_of_some hr).1]
      constructor
      · intro h
        have hnil := eq_nil_of_map_add hoffset (List.append_inj_left h (by simp))
        rw [refusedPositions_eq_nil_iff, hr] at hnil
        exact hnil
      · rintro ⟨⟩

/-- The write errors point at the rejected rows iff only rows of the first page are rejected. -/
theorem pointsAtRejected_iff (c : Codec ρ δ) (s : Server δ) (rows : List ρ) (w : World δ)
    (hn : 0 < n) : PointsAtRejected c s rows n w ↔
      (c.Encodable rows → SendsEnd c s rows n → RejectsOnFirstPage c s rows n w.docs) := by
  by_cases he : c.Encodable rows
  · rw [imp_iff_right he]
    by_cases hsend : SendsEnd c s rows n
    · obtain ⟨out, w', hrun, hindex⟩ := writeErrors_mongoStreamOut s hn he hsend w
      have hpoints : PointsAtRejected c s rows n w ↔
          reportedRows c s (pages n rows) w.docs = rejectedRows c s 0 (pages n rows) w.docs := by
        rw [← hindex]
        constructor
        · exact fun h => h out w' hrun
        · intro h out' w'' hrun'
          obtain ⟨hout, -⟩ := Prod.mk.inj (hrun.symm.trans hrun')
          rw [← Except.ok.inj hout]
          exact h
      rw [hpoints, imp_iff_right hsend, RejectsOnFirstPage]
      rcases eq_or_ne rows [] with rfl | hne
      · simp [reportedRows, rejectedRows, sentDocs]
      · have hpos : 0 < (rows.take n).length :=
          List.length_pos_iff.mpr (by simp [hne, hn.ne'])
        rw [pages_cons hn hne, reportedRows, rejectedRows]
        simp only [Nat.zero_add, List.append_cancel_left_eq]
        rw [reportedRows_eq_iff _ _ hpos]
    · obtain ⟨w', hrun⟩ := mongoStreamOut_of_unending s hn he hsend w
      constructor
      · exact fun _ h => absurd h hsend
      · intro _ out w'' hrun'
        rw [hrun] at hrun'
        cases hrun'
  · obtain ⟨e, w', hrun⟩ := mongoStreamOut_of_not_encodable s hn he w
    constructor
    · exact fun _ h => absurd h he
    · intro _ out w'' hrun'
      rw [hrun] at hrun'
      cases hrun'

/-- Two refusals on the first page, in two messages of two documents. -/
theorem pointsAtRejected_iff_two_messages :
    PointsAtRejected plainText (uniqueIndex.inMessagesOf 2 (by decide)) ["a", "a", "b", "b", "c"] 4
        ⟨[], []⟩ ↔
      (plainText.Encodable ["a", "a", "b", "b", "c"] →
        SendsEnd plainText (uniqueIndex.inMessagesOf 2 (by decide)) ["a", "a", "b", "b", "c"] 4 →
        RejectsOnFirstPage plainText (uniqueIndex.inMessagesOf 2 (by decide))
          ["a", "a", "b", "b", "c"] 4 []) :=
  pointsAtRejected_iff plainText (uniqueIndex.inMessagesOf 2 (by decide))
    ["a", "a", "b", "b", "c"] ⟨[], []⟩ (by decide)

/-- The refused third row, at position 2, is reported at position 0 of the second page. -/
theorem not_pointsAtRejected_second_page :
    ¬ PointsAtRejected plainText uniqueIndex.inOneMessage ["a", "b", "a"] 2 ⟨[], []⟩ := by
  intro h
  have hrun : mongoStreamOut plainText uniqueIndex.inOneMessage ["a", "b", "a"] 2 false ⟨[], []⟩ =
      (.ok ⟨2, 0, 0, 0, [⟨0, "E11000 duplicate key error"⟩]⟩,
        ⟨["a", "b"], ["Not all inserts were successful: E11000 duplicate key error\n"]⟩) :=
    rfl
  exact absurd (h _ _ hrun) (by decide)

end Mongolite
