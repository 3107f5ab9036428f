import Mongolite.Transfer.RoundTrip

/-! # Incomplete streams

A stream with a document that cannot be one is reported. A stream that is cut
off inside its last document is not: the reader takes the cut for the end, so a
restore succeeds with the documents before it, and so does the file reader.
-/

namespace Mongolite

variable {β : Type} {bs : List UInt8} {validate : Bson → Option String} {toR : Bson → β}
  {s : Server Bson} {ids : ℕ → Bytes 12} {db : List Bson} {ready ready' : ℕ → ℕ}

/-- The stream stops inside its last document, or inside the length prefix of it. -/
def CutOff (bs : List UInt8) : Prop := bsonFront (bsonFraming.rest bs) = .cut

instance : Decidable (CutOff bs) := inferInstanceAs (Decidable (bsonFront _ = .cut))

/-- A restore that did not go through in silence. -/
def Restored.Reported (out : Restored) : Prop := out.warnings ≠ [] ∨ ∃ e, out.result = .error e

/-- A restore reports that the stream is damaged, or the stream is a sequence of documents, which
are all in the collection, with their ids. -/
def RestoreReports (s : Server Bson) (validate : Bson → Option String) (ids : ℕ → Bytes 12)
    (db : List Bson) (con : Connection) : Prop :=
  ∃ out, rMongoRestore s validate ids db con = some out ∧
    (out.Reported ∨ ∃ ds : List Bson, con.rest = ds.flatMap Bson.bytes ∧
      out.docs = db ++ withIds ids 0 ds)

/-- The file reader raises, or the file is a sequence of documents, which are all in the result. -/
def ReaderFileReports (toR : Bson → β) (bs : List UInt8) (ready ready' : ℕ → ℕ) : Prop :=
  ∃ out, rBsonReaderFile toR (.ok bs) ready ready' = some out ∧
    ∀ xs, out = .ok xs → ∃ ds : List Bson, bs = ds.flatMap Bson.bytes ∧ xs = ds.map toR

theorem not_cutOff_flatMap (ds : List Bson) : ¬ CutOff (ds.flatMap Bson.bytes) := by
  intro h
  rw [CutOff, rest_flatMap_bytes] at h
  cases h

/-- Where the reader reports the end of a stream that is not cut off, it has read all of it. -/
theorem eq_flatMap_of_reportsEnd (hcut : ¬ CutOff bs)
    (hend : reportsEnd (bsonFraming.rest bs) = true) :
    bs = (bsonFraming.frames bs).flatMap Bson.bytes := by
  have hclean : bsonFront (bsonFraming.rest bs) = .clean := by
    rw [reportsEnd] at hend
    cases hfront : bsonFront (bsonFraming.rest bs) with
    | clean => rfl
    | cut => exact absurd hfront hcut
    | bad => simp [hfront, answer] at hend
    | frame d => exact absurd hfront (bsonFraming.front_rest bs d)
  have hrest : bsonFraming.rest bs = [] := (bsonFraming.front_eq_clean _).mp hclean
  conv_lhs => rw [← bsonFraming.flatMap_frames_append_rest bs, hrest, List.append_nil]
  rfl

theorem reportsEnd_of_cutOff (h : CutOff bs) : reportsEnd (bsonFraming.rest bs) = true := by
  rw [reportsEnd, h]
  rfl

theorem reported_fail (st : Restoring) (failure : Failure) : (st.fail failure).Reported :=
  .inr ⟨failure, rfl⟩

theorem restoreReports_of_refused (con : Connection)
    (h : ¬ AllAccepted s validate ids 0 db (bsonFraming.frames con.rest)) :
    RestoreReports s validate ids db con := by
  obtain ⟨st, e, heq⟩ := rMongoRestore_of_refused con h
  exact ⟨_, heq, .inl (reported_fail st e)⟩

theorem restoreReports_of_not_cutOff (con : Connection) (h : ¬ CutOff con.rest) :
    RestoreReports s validate ids db con := by
  by_cases hacc : AllAccepted s validate ids 0 db (bsonFraming.frames con.rest)
  · rcases rMongoRestore_of_accepted con (roomy_feed con.rest) hacc with ⟨-, st, e, heq⟩ | heq
    · exact ⟨_, heq, .inl (reported_fail st e)⟩
    · refine ⟨_, heq, ?_⟩
      cases hend : reportsEnd (bsonFraming.rest con.rest) with
      | true => exact .inr ⟨_, eq_flatMap_of_reportsEnd h hend, rfl⟩
      | false =>
        refine .inl (.inl ?_)
        simp [Restoring.accept, Restoring.finish, hend]
  · exact restoreReports_of_refused con hacc

/-- A stream that is cut off goes through in silence if the documents before it are taken. -/
theorem not_restoreReports_of_cutOff (con : Connection) (hmod : Moderate con.rest)
    (hacc : AllAccepted s validate ids 0 db (bsonFraming.frames con.rest)) (h : CutOff con.rest) :
    ¬ RestoreReports s validate ids db con := by
  rintro ⟨out, hout, hreport⟩
  rcases rMongoRestore_of_accepted con hmod.roomy_feed hacc with ⟨hfalse, -⟩ | heq
  · exact hfalse.elim
  · obtain rfl := Option.some.inj (heq.symm.trans hout)
    rcases hreport with hreported | ⟨ds, hds, -⟩
    · simp [Restored.Reported, Restoring.accept, Restoring.finish, reportsEnd_of_cutOff h]
        at hreported
    · exact not_cutOff_flatMap ds (hds ▸ h)

/-- The file reader notices every damage but a cut. -/
theorem readerFileReports_iff (toR : Bson → β) (ready ready' : ℕ → ℕ)
    (hsize : bs.length < 2 ^ 31 ∨ Moderate bs) :
    ReaderFileReports toR bs ready ready' ↔ ¬ CutOff bs := by
  have heq := rBsonReaderFile_spec toR ready ready' hsize
  constructor
  · rintro ⟨out, hout, hcomplete⟩ hcut
    rw [if_pos (reportsEnd_of_cutOff hcut)] at heq
    obtain rfl := Option.some.inj (heq.symm.trans hout)
    obtain ⟨ds, rfl, -⟩ := hcomplete _ rfl
    exact not_cutOff_flatMap ds hcut
  · intro hcut
    refine ⟨_, heq, fun xs hxs => ?_⟩
    split at hxs
    · rename_i hend
      cases hxs
      exact ⟨_, eq_flatMap_of_reportsEnd hcut hend, rfl⟩
    · cases hxs

/-- A damaged stream is reported unless it is cut off and no document before the cut is refused;
where no length declared exceeds a GiB, exactly then. The file reader reports a damaged file
exactly unless it is cut off. -/
theorem reports_iff_not_cutOff (s : Server Bson) (validate : Bson → Option String)
    (ids : ℕ → Bytes 12) (db : List Bson) (toR : Bson → β) (bs : List UInt8)
    (ready ready' : ℕ → ℕ) :
    (¬ CutOff bs ∨ ¬ AllAccepted s validate ids 0 db (bsonFraming.frames bs) →
      RestoreReports s validate ids db ⟨bs, ready, 0⟩) ∧
    (Moderate bs → (RestoreReports s validate ids db ⟨bs, ready, 0⟩ ↔
      ¬ CutOff bs ∨ ¬ AllAccepted s validate ids 0 db (bsonFraming.frames bs))) ∧
    (bs.length < 2 ^ 31 ∨ Moderate bs →
      (ReaderFileReports toR bs ready ready' ↔ ¬ CutOff bs)) := by
  have hreports : ¬ CutOff bs ∨ ¬ AllAccepted s validate ids 0 db (bsonFraming.frames bs) →
      RestoreReports s validate ids db ⟨bs, ready, 0⟩ := fun h =>
    h.elim (restoreReports_of_not_cutOff ⟨bs, ready, 0⟩)
      (restoreReports_of_refused ⟨bs, ready, 0⟩)
  refine ⟨hreports, fun hmod => ⟨fun h => ?_, hreports⟩, readerFileReports_iff toR ready ready'⟩
  by_contra hneither
  rw [not_or, not_not, not_not] at hneither
  exact not_restoreReports_of_cutOff ⟨bs, ready, 0⟩ hmod hneither.2 hneither.1 h

/-- A dump of two empty documents without its last byte: one document is restored, in silence. -/
theorem not_reports_cut_second_document :
    ¬ RestoreReports (Gate.behindDriver (fun _ _ => none) defaultLimits) (fun _ => none)
        zeroIds [] ⟨emptyBson.bytes ++ [5, 0, 0, 0], fun _ => 9, 0⟩ ∧
      ¬ ReaderFileReports Bson.bytes (emptyBson.bytes ++ [5, 0, 0, 0]) (fun _ => 9)
        (fun _ => 9) := by
  have hfront : bsonFraming.front [5, 0, 0, 0] = .cut := by decide
  have hstop : ∀ d, bsonFraming.front [5, 0, 0, 0] ≠ .frame d := by simp [hfront]
  have hframes : bsonFraming.frames (emptyBson.bytes ++ [5, 0, 0, 0]) = [emptyBson] := by
    have h := bsonFraming.frames_bytes_append emptyBson [5, 0, 0, 0]
    rwa [bsonFraming.frames_of_stop hstop] at h
  have hrest : bsonFraming.rest (emptyBson.bytes ++ [5, 0, 0, 0]) = [5, 0, 0, 0] := by
    have h := bsonFraming.rest_bytes_append emptyBson [5, 0, 0, 0]
    rwa [bsonFraming.rest_of_stop hstop] at h
  have hcut : CutOff (emptyBson.bytes ++ [5, 0, 0, 0]) := by
    rw [CutOff, hrest]
    exact hfront
  constructor
  · refine not_restoreReports_of_cutOff _ ?_ ?_ hcut
    · rw [Moderate, hframes, hrest]
      exact ⟨by decide, by decide⟩
    · rw [hframes]
      exact ⟨fun _ _ => rfl, rfl, sent_behindDriver (by decide) (bytesSize_page_lt (by decide))⟩
  · rw [readerFileReports_iff Bson.bytes _ _ (.inl (by decide))]
    exact not_not.mpr hcut

end Mongolite
