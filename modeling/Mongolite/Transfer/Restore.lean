import Mongolite.Bson.Reading
import Mongolite.Driver.Messages
import Mongolite.Library.Pages

/-! # Restoring a collection from a connection

`R_mongo_restore` reads documents from a connection and sends them in bulk
operations of up to 1000, until a bulk operation gets none or the reader says
that it is done.
-/

namespace Mongolite

variable {read : ReadFunc} {ok : ℕ → Prop} {raises : Prop} {r : BsonReader} {bs : List UInt8}
  {n fuel : ℕ}

/-- What the loop over one bulk operation leaves: how many documents went in, what the last read
said about the end, the bulk operation and the reader. -/
structure BulkRead where
  i : ℕ
  done : Bool
  bulk : BulkOperation Bson
  reader : BsonReader

/-- Up to `n` documents into a bulk operation, the first of them as the `k`-th of the call, for
which the driver would make the id `ids k`. -/
def readBulk (read : ReadFunc) (validate : Bson → Option String) (ids : ℕ → Bytes 12) :
    ℕ → ℕ → BulkOperation Bson → BsonReader → Option (Except String BulkRead)
  | 0, _, bulk, r => some (.ok ⟨0, false, bulk, r⟩)
  | n + 1, k, bulk, r =>
    andThen (bsonReaderRead read r) fun res =>
      match res.doc with
      | none => some (.ok ⟨0, res.reachedEof, bulk, res.reader⟩)
      | some b =>
        let bulk' := mongocBulkOperationInsert validate bulk b
          (mongocWriteCommandInsertAppend (ids k) b)
        andThen (readBulk read validate ids n (k + 1) bulk' res.reader) fun out =>
          some (.ok { out with i := out.i + 1 })

/-- The number of documents read, the collection, and the sizes of the bulk operations executed. -/
structure Restoring where
  count : ℕ
  docs : List Bson
  executed : List ℕ

/-- What a call of `R_mongo_restore` leaves: its value or its failure, its warnings, the
collection, and the sizes of the bulk operations executed. -/
structure Restored where
  result : Except Failure ℤ
  warnings : List String
  docs : List Bson
  executed : List ℕ

def Restoring.fail (st : Restoring) (failure : Failure) : Restored :=
  ⟨.error failure, [], st.docs, st.executed⟩

/-- After the loop: an `int` count, and a warning if the reader did not say that it is done. -/
def Restoring.finish (st : Restoring) (done : Bool) : Restored :=
  ⟨.ok (toInt32 st.count), if done then [] else ["Failed to read all documents.\n"], st.docs,
    st.executed⟩

/-- The outer loop of `R_mongo_restore`; `none` means that it did not end within `fuel` rounds. -/
def restoreLoop (read : ReadFunc) (s : Server Bson) (validate : Bson → Option String)
    (ids : ℕ → Bytes 12) : ℕ → Restoring → BsonReader → Option Restored
  | 0, _, _ => none
  | fuel + 1, st, r =>
    -- default opts uses {ordered:true}
    match readBulk read validate ids 1000 st.count
      (mongocCollectionCreateBulkOperationWithOpts none) r with
    | none => none
    | some (.error e) => some (st.fail (.raised e))
    | some (.ok out) =>
      if out.i = 0 then some (st.finish out.done)
      else
        let res := mongocBulkOperationExecute s.gate s.send out.bulk st.docs
        let st' : Restoring :=
          ⟨st.count + out.i, res.docs, st.executed ++ [out.bulk.commands.length]⟩
        match res.failure with
        | some failure => some (st'.fail failure)
        | none =>
          if out.done then some (st'.finish true)
          else restoreLoop read s validate ids fuel st' out.reader

/-- `R_mongo_restore`: every round but the last one takes a document from the connection. -/
def rMongoRestore (s : Server Bson) (validate : Bson → Option String) (ids : ℕ → Bytes 12)
    (db : List Bson) (con : Connection) : Option Restored :=
  match bsonReaderNewFromHandle bsonReaderFeed con with
  | .error e => some ⟨.error (.raised e), [], db, []⟩
  | .ok r => restoreLoop bsonReaderFeed s validate ids (con.rest.length + 1) ⟨0, db, []⟩ r

def withIds (ids : ℕ → Bytes 12) : ℕ → List Bson → List Bson
  | _, [] => []
  | k, d :: ds => mongocWriteCommandInsertAppend (ids k) d :: withIds ids (k + 1) ds

variable {validate : Bson → Option String} {ids : ℕ → Bytes 12} {s : Server Bson}
  {st : Restoring} {ds db : List Bson} {t : List UInt8} {k : ℕ}

@[simp] theorem length_withIds (ids : ℕ → Bytes 12) (k : ℕ) (ds : List Bson) :
    (withIds ids k ds).length = ds.length := by
  induction ds generalizing k with
  | nil => rfl
  | cons d ds ih => rw [withIds, List.length_cons, List.length_cons, ih]

theorem withIds_append (ids : ℕ → Bytes 12) (k : ℕ) (ds ds' : List Bson) :
    withIds ids k (ds ++ ds') = withIds ids k ds ++ withIds ids (k + ds.length) ds' := by
  induction ds generalizing k with
  | nil => rfl
  | cons d ds ih =>
    rw [List.cons_append, withIds, withIds, ih, List.cons_append, List.length_cons]
    congr 3
    omega

theorem withIds_take (ids : ℕ → Bytes 12) (k : ℕ) (ds : List Bson) (n : ℕ) :
    (withIds ids k ds).take n = withIds ids k (ds.take n) := by
  induction ds generalizing k n with
  | nil => simp [withIds]
  | cons d ds ih =>
    cases n with
    | zero => rfl
    | succ n => rw [withIds, List.take_succ_cons, List.take_succ_cons, withIds, ih]

theorem withIds_drop (ids : ℕ → Bytes 12) (k : ℕ) (ds : List Bson) (n : ℕ) :
    (withIds ids k ds).drop n = withIds ids (k + (ds.take n).length) (ds.drop n) := by
  have happend := withIds_append ids k (ds.take n) (ds.drop n)
  rw [List.take_append_drop, ← withIds_take] at happend
  exact List.append_cancel_left ((List.take_append_drop n _).trans happend)

def bulkOf (validate : Bson → Option String) (ids : ℕ → Bytes 12) (k : ℕ) (ds : List Bson) :
    BulkOperation Bson :=
  insertAll validate (mongocCollectionCreateBulkOperationWithOpts none)
    (ds.zip (withIds ids k ds))

theorem readBulk_spec (hread : Delivers read ok) (k : ℕ) (bulk : BulkOperation Bson)
    (h : Holds ok raises r ds t) :
    (raises ∧ ∃ e, readBulk read validate ids n k bulk r = some (.error e)) ∨
      ∃ r', readBulk read validate ids n k bulk r = some (.ok ⟨(ds.take n).length,
          decide (ds.length < n) && reportsEnd t,
          insertAll validate bulk ((ds.take n).zip (withIds ids k (ds.take n))), r'⟩) ∧
        Holds ok raises r' (ds.drop n) t := by
  induction n generalizing k bulk r ds with
  | zero => exact .inr ⟨r, by simp [readBulk], h⟩
  | succ n ih =>
    cases ds with
    | nil =>
      rcases read_rest hread h with ⟨hraises, e, heq⟩ | ⟨r', heq, hr'⟩
      · exact .inl ⟨hraises, e, by rw [readBulk, heq, andThen_error]⟩
      · exact .inr ⟨r', by rw [readBulk, heq, andThen_ok]; simp, hr'⟩
    | cons d ds =>
      rcases read_document hread h with ⟨hraises, e, heq⟩ | ⟨r', heq, hr'⟩
      · exact .inl ⟨hraises, e, by rw [readBulk, heq, andThen_error]⟩
      · rcases ih (k + 1) (mongocBulkOperationInsert validate bulk d
            (mongocWriteCommandInsertAppend (ids k) d)) hr' with
          ⟨hraises, e, hrest⟩ | ⟨r'', hrest, hr''⟩
        · refine .inl ⟨hraises, e, ?_⟩
          rw [readBulk, heq, andThen_ok]
          simp only [hrest, andThen_error]
        · refine .inr ⟨r'', ?_, hr''⟩
          rw [readBulk, heq, andThen_ok]
          simp only [hrest, andThen_ok]
          simp [withIds, insertAll_cons]

/-- The driver takes the documents of a restore and gets them sent, a thousand at a time, and the
server accepts them; the first of them is the `k`-th of the call. -/
structure AllAccepted (s : Server Bson) (validate : Bson → Option String) (ids : ℕ → Bytes 12)
    (k : ℕ) (db ds : List Bson) : Prop where
  valid : AllValid validate ds
  admitted : s.gate.refusal db (withIds ids k ds) = none
  sent : ∀ p ∈ pages 1000 (withIds ids k ds), (s.send p).failure = none

theorem allAccepted_nil (s : Server Bson) (validate : Bson → Option String) (ids : ℕ → Bytes 12)
    (k : ℕ) (db : List Bson) : AllAccepted s validate ids k db [] :=
  ⟨by simp [AllValid], rfl, by simp [withIds]⟩

theorem bulkOf_of_valid (h : AllValid validate ds) :
    bulkOf validate ids k ds = ⟨true, withIds ids k ds, none⟩ := by
  have hfst : (ds.zip (withIds ids k ds)).map Prod.fst = ds := List.map_fst_zip (by simp)
  have hsnd : (ds.zip (withIds ids k ds)).map Prod.snd = withIds ids k ds :=
    List.map_snd_zip (by simp)
  rw [bulkOf, mongocCollectionCreateBulkOperationWithOpts,
    insertAll_of_valid validate _ [] _ (by rwa [hfst]), hsnd]
  rfl

/-- At most a thousand documents are taken iff they are valid and the server takes them. -/
theorem allAccepted_iff_takes (hne : ds ≠ []) (hlen : ds.length ≤ 1000) :
    AllAccepted s validate ids k db ds ↔
      AllValid validate ds ∧ s.Takes db (withIds ids k ds) := by
  have hne' : withIds ids k ds ≠ [] := by
    rw [← List.length_pos_iff, length_withIds]
    exact List.length_pos_iff.mpr hne
  have hpages : pages 1000 (withIds ids k ds) = [withIds ids k ds] :=
    pages_of_length_le hne' (by simpa using hlen)
  constructor
  · rintro ⟨hvalid, hadmitted, hsent⟩
    exact ⟨hvalid, hsent _ (by simp [hpages]), hadmitted⟩
  · rintro ⟨hvalid, hsent, hadmitted⟩
    exact ⟨hvalid, hadmitted, by simpa [hpages] using hsent⟩

theorem execute_accepted (hne : ds ≠ []) (hlen : ds.length ≤ 1000)
    (h : AllAccepted s validate ids k db ds) :
    (mongocBulkOperationExecute s.gate s.send (bulkOf validate ids k ds) db).failure = none ∧
      (mongocBulkOperationExecute s.gate s.send (bulkOf validate ids k ds) db).docs =
        db ++ withIds ids k ds ∧
      (bulkOf validate ids k ds).commands.length = ds.length := by
  obtain ⟨hvalid, htakes⟩ := (allAccepted_iff_takes hne hlen).mp h
  have hne' : withIds ids k ds ≠ [] := by
    rw [← List.length_pos_iff, length_withIds]
    exact List.length_pos_iff.mpr hne
  rw [bulkOf_of_valid hvalid, execute_of_commands s.gate s.send _ db hne']
  exact ⟨(executeInserts_failure_eq_none_iff s _ db).mpr htakes,
    executeInserts_docs_of_takes htakes, length_withIds ids k ds⟩

theorem execute_refused (hne : ds ≠ []) (hlen : ds.length ≤ 1000)
    (h : ¬ AllAccepted s validate ids k db ds) :
    ∃ failure, (mongocBulkOperationExecute s.gate s.send
      (bulkOf validate ids k ds) db).failure = some failure := by
  rw [allAccepted_iff_takes hne hlen] at h
  by_cases hvalid : AllValid validate ds
  · have hne' : withIds ids k ds ≠ [] := by
      rw [← List.length_pos_iff, length_withIds]
      exact List.length_pos_iff.mpr hne
    rw [bulkOf_of_valid hvalid, execute_of_commands s.gate s.send _ db hne']
    exact Option.ne_none_iff_exists'.mp fun hnone =>
      h ⟨hvalid, (executeInserts_failure_eq_none_iff s _ db).mp hnone⟩
  · have hfst : (ds.zip (withIds ids k ds)).map Prod.fst = ds := List.map_fst_zip (by simp)
    obtain ⟨e, he⟩ := insertAll_of_invalid validate
      (mongocCollectionCreateBulkOperationWithOpts none) (ds.zip (withIds ids k ds))
      (by rwa [hfst])
    exact ⟨.raised e, by rw [bulkOf, execute_of_error s.gate s.send db he]⟩

/-- What the loop ends with when every document is taken. -/
def Restoring.accept (ids : ℕ → Bytes 12) (st : Restoring) (ds : List Bson) (t : List UInt8) :
    Restored :=
  Restoring.finish ⟨st.count + ds.length, st.docs ++ withIds ids st.count ds,
    st.executed ++ (pages 1000 ds).map List.length⟩ (reportsEnd t)

theorem allAccepted_iff (hne : ds ≠ []) :
    AllAccepted s validate ids k db ds ↔ AllAccepted s validate ids k db (ds.take 1000) ∧
      AllAccepted s validate ids (k + (ds.take 1000).length)
        (db ++ withIds ids k (ds.take 1000)) (ds.drop 1000) := by
  have hne' : withIds ids k ds ≠ [] := by
    rw [← List.length_pos_iff, length_withIds]
    exact List.length_pos_iff.mpr hne
  have htake : ds.take 1000 ≠ [] := by simp [hne]
  have hpages := pages_cons (n := 1000) (by decide) hne'
  have hsplit : withIds ids k ds = withIds ids k (ds.take 1000) ++
      withIds ids (k + (ds.take 1000).length) (ds.drop 1000) := by
    rw [← withIds_append, List.take_append_drop]
  rw [withIds_take, withIds_drop] at hpages
  rw [allAccepted_iff_takes htake (by simp)]
  constructor
  · rintro ⟨hvalid, hadmitted, hsent⟩
    rw [hpages] at hsent
    have hfirst : s.gate.refusal db (withIds ids k (ds.take 1000)) = none := by
      by_contra hrefused
      obtain ⟨e, he⟩ := Option.ne_none_iff_exists'.mp hrefused
      rw [hsplit, (s.gate.refusal_append_of_some he).1] at hadmitted
      cases hadmitted
    rw [hsplit, s.gate.refusal_append_of_none hfirst] at hadmitted
    exact ⟨⟨fun d hd => hvalid d (List.mem_of_mem_take hd), hsent _ List.mem_cons_self, hfirst⟩,
      fun d hd => hvalid d (List.mem_of_mem_drop hd), hadmitted,
      fun p hp => hsent p (List.mem_cons_of_mem _ hp)⟩
  · rintro ⟨⟨hvalid, hsent, hadmitted⟩, hvalid', hadmitted', hsent'⟩
    refine ⟨fun d hd => ?_, ?_, ?_⟩
    · rw [← List.take_append_drop 1000 ds] at hd
      exact (List.mem_append.mp hd).elim (hvalid d) (hvalid' d)
    · rw [hsplit, s.gate.refusal_append_of_none hadmitted, hadmitted']
    · rw [hpages]
      exact List.forall_mem_cons.mpr ⟨hsent, hsent'⟩

theorem restoreLoop_of_none (hread : Delivers read ok) (h : Holds ok raises r [] t) :
    (raises ∧ ∃ e, restoreLoop read s validate ids (fuel + 1) st r = some (st.fail e)) ∨
      restoreLoop read s validate ids (fuel + 1) st r = some (st.finish (reportsEnd t)) := by
  rcases readBulk_spec (n := 1000) hread st.count
      (mongocCollectionCreateBulkOperationWithOpts none) h with
    ⟨hraises, e, heq⟩ | ⟨r', heq, -⟩
  · exact .inl ⟨hraises, .raised e, by rw [restoreLoop, heq]⟩
  · exact .inr (by rw [restoreLoop, heq]; simp)

theorem restoreLoop_of_refused (hread : Delivers read ok) (h : Holds ok raises r ds t)
    (hne : ds ≠ []) (hacc : ¬ AllAccepted s validate ids st.count st.docs (ds.take 1000)) :
    ∃ st' e, restoreLoop read s validate ids (fuel + 1) st r = some (Restoring.fail st' e) := by
  have hne' : ds.take 1000 ≠ [] := by simp [hne]
  obtain ⟨e, he⟩ := execute_refused hne' (by simp) hacc
  rcases readBulk_spec (n := 1000) hread st.count
      (mongocCollectionCreateBulkOperationWithOpts none) h with
    ⟨-, e', heq⟩ | ⟨r', heq, -⟩
  · exact ⟨st, .raised e', by rw [restoreLoop, heq]⟩
  · rw [restoreLoop, heq]
    simp only [List.length_eq_zero_iff, hne', if_false]
    rw [← bulkOf, he]
    exact ⟨_, e, rfl⟩

theorem restoreLoop_of_accepted (hread : Delivers read ok) (h : Holds ok raises r ds t)
    (hne : ds ≠ []) (hacc : AllAccepted s validate ids st.count st.docs (ds.take 1000)) :
    (raises ∧ ∃ e, restoreLoop read s validate ids (fuel + 1) st r = some (st.fail e)) ∨
      ∃ r' st', Holds ok raises r' (ds.drop 1000) t ∧
        st' = Restoring.mk (st.count + (ds.take 1000).length)
          (st.docs ++ withIds ids st.count (ds.take 1000))
          (st.executed ++ [(ds.take 1000).length]) ∧
        restoreLoop read s validate ids (fuel + 1) st r =
          if decide (ds.length < 1000) && reportsEnd t then some (Restoring.finish st' true)
          else restoreLoop read s validate ids fuel st' r' := by
  have hne' : ds.take 1000 ≠ [] := by simp [hne]
  obtain ⟨hfailure, hdocs, hlen⟩ := execute_accepted hne' (by simp) hacc
  rcases readBulk_spec (n := 1000) hread st.count
      (mongocCollectionCreateBulkOperationWithOpts none) h with
    ⟨hraises, e, heq⟩ | ⟨r', heq, hr'⟩
  · exact .inl ⟨hraises, .raised e, by rw [restoreLoop, heq]⟩
  · refine .inr ⟨r', _, hr', rfl, ?_⟩
    rw [restoreLoop, heq]
    simp only [List.length_eq_zero_iff, hne', if_false]
    rw [← bulkOf, hfailure, hdocs, hlen]

theorem restoreLoop_accepted (hread : Delivers read ok) (h : Holds ok raises r ds t)
    (hacc : AllAccepted s validate ids st.count st.docs ds) (hfuel : ds.length < fuel) :
    (raises ∧ ∃ st' e, restoreLoop read s validate ids fuel st r =
        some (Restoring.fail st' e)) ∨
      restoreLoop read s validate ids fuel st r = some (st.accept ids ds t) := by
  induction fuel generalizing st r ds with
  | zero => exact absurd hfuel (Nat.not_lt_zero _)
  | succ fuel ih =>
    rcases eq_or_ne ds [] with rfl | hne
    · rcases restoreLoop_of_none hread h with ⟨hraises, e, heq⟩ | heq
      · exact .inl ⟨hraises, st, e, heq⟩
      · exact .inr (by rw [heq]; simp [Restoring.accept, withIds])
    · obtain ⟨hfirst, hothers⟩ := (allAccepted_iff hne).mp hacc
      rcases restoreLoop_of_accepted hread h hne hfirst with
        ⟨hraises, e, heq⟩ | ⟨r', st', hr', hst', heq⟩
      · exact .inl ⟨hraises, st, e, heq⟩
      · have hdrop : (ds.drop 1000).length < fuel := by
          have := List.length_pos_iff.mpr hne
          rw [List.length_drop]
          omega
        have hnext : st'.accept ids (ds.drop 1000) t = st.accept ids ds t := by
          have hlen : (ds.take 1000).length + (ds.drop 1000).length = ds.length := by
            rw [← List.length_append, List.take_append_drop]
          have hdocs : withIds ids st.count ds = withIds ids st.count (ds.take 1000) ++
              withIds ids (st.count + (ds.take 1000).length) (ds.drop 1000) := by
            rw [← withIds_append, List.take_append_drop]
          rw [hst', Restoring.accept, Restoring.accept, pages_cons (by decide) hne, hdocs]
          simp only [List.append_assoc, List.map_cons, List.singleton_append, Nat.add_assoc, hlen]
        rw [heq]
        split
        · rename_i hlast
          obtain ⟨hshort, hend⟩ : ds.length < 1000 ∧ reportsEnd t = true := by simpa using hlast
          refine .inr ?_
          rw [← hnext, List.drop_of_length_le (Nat.le_of_lt hshort)]
          simp [Restoring.accept, withIds, hend]
        · have hacc' : AllAccepted s validate ids st'.count st'.docs (ds.drop 1000) := by
            rw [hst']
            exact hothers
          rw [← hnext]
          exact ih hr' hacc' hdrop

theorem restoreLoop_refused (hread : Delivers read ok) (h : Holds ok raises r ds t)
    (hacc : ¬ AllAccepted s validate ids st.count st.docs ds) (hfuel : ds.length < fuel) :
    ∃ st' e, restoreLoop read s validate ids fuel st r = some (Restoring.fail st' e) := by
  induction fuel generalizing st r ds with
  | zero => exact absurd hfuel (Nat.not_lt_zero _)
  | succ fuel ih =>
    have hne : ds ≠ [] := by
      rintro rfl
      exact hacc (allAccepted_nil s validate ids st.count st.docs)
    by_cases hpage : AllAccepted s validate ids st.count st.docs (ds.take 1000)
    · rcases restoreLoop_of_accepted hread h hne hpage with
        ⟨-, e, heq⟩ | ⟨r', st', hr', hst', heq⟩
      · exact ⟨st, e, heq⟩
      · have hlong : ¬ ds.length < 1000 := fun hshort => hacc (by
          rwa [List.take_of_length_le (Nat.le_of_lt hshort)] at hpage)
        have hacc' : ¬ AllAccepted s validate ids st'.count st'.docs (ds.drop 1000) := by
          rw [hst']
          exact fun hdrop => hacc ((allAccepted_iff hne).mpr ⟨hpage, hdrop⟩)
        rw [heq]
        simp only [hlong, decide_false, Bool.false_and, Bool.false_eq_true, if_false]
        exact ih hr' hacc' (by rw [List.length_drop]; omega)
    · exact restoreLoop_of_refused hread h hne hpage

variable {con : Connection}

theorem roomy_feed (bs : List UInt8) : Roomy (· < 2 ^ 31) True bs 1024 :=
  .inr (.inr ⟨trivial, by decide, fun _ => Iff.rfl⟩)

theorem Moderate.roomy_feed (h : Moderate bs) : Roomy (· < 2 ^ 31) False bs 1024 :=
  .inl ⟨h, by decide, fun c hc => show c < 2 ^ 31 by omega⟩

theorem rMongoRestore_eq_loop (hroom : Roomy (· < 2 ^ 31) raises con.rest 1024) :
    ∃ r, Holds (· < 2 ^ 31) raises r (bsonFraming.frames con.rest) (bsonFraming.rest con.rest) ∧
      rMongoRestore s validate ids db con =
        restoreLoop bsonReaderFeed s validate ids (con.rest.length + 1) ⟨0, db, []⟩ r := by
  obtain ⟨r, heq, hr⟩ := holds_of_new con delivers_feed hroom
  refine ⟨r, hr, ?_⟩
  unfold rMongoRestore
  rw [heq]

/-- A restore where every document is taken: all of them are, unless the connection raises. -/
theorem rMongoRestore_of_accepted (con : Connection)
    (hroom : Roomy (· < 2 ^ 31) raises con.rest 1024)
    (hacc : AllAccepted s validate ids 0 db (bsonFraming.frames con.rest)) :
    (raises ∧ ∃ st e, rMongoRestore s validate ids db con = some (Restoring.fail st e)) ∨
      rMongoRestore s validate ids db con =
        some (Restoring.accept ids ⟨0, db, []⟩ (bsonFraming.frames con.rest)
          (bsonFraming.rest con.rest)) := by
  obtain ⟨r, hr, heq⟩ := rMongoRestore_eq_loop hroom
  have hfuel := Nat.lt_succ_of_le (bsonFraming.length_frames_le con.rest)
  rw [heq]
  exact restoreLoop_accepted delivers_feed hr hacc hfuel

theorem rMongoRestore_of_refused (con : Connection)
    (hacc : ¬ AllAccepted s validate ids 0 db (bsonFraming.frames con.rest)) :
    ∃ st e, rMongoRestore s validate ids db con = some (Restoring.fail st e) := by
  obtain ⟨r, hr, heq⟩ := rMongoRestore_eq_loop (roomy_feed con.rest)
  have hfuel := Nat.lt_succ_of_le (bsonFraming.length_frames_le con.rest)
  rw [heq]
  exact restoreLoop_refused delivers_feed hr hacc hfuel

end Mongolite
