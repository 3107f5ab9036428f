import Mongolite.Bson.Shape
import Mongolite.Driver.Bulk

/-! # How the driver sends documents

A document that is inserted goes into the payload of its bulk operation, with a
new `_id` in front if it has none. `_mongoc_write_opmsg` cuts the payload into
messages. It counts bytes in 32-bit words, so below 4 GiB it sends every document
that is not too large, in order, and from there on it never gets done.
-/

namespace Mongolite

/-- `bson_iter_find`: whether a key is found from an iterator on. -/
def bsonIterFind (key : List UInt8) (it : BsonIter) : Bool :=
  match _h : bsonIterNext it with
  | (false, _) => false
  | (true, it') => bsonIterKey it' == key || bsonIterFind key it'
termination_by it.remaining
decreasing_by
  obtain ⟨_, hmove⟩ := movesTo_of_next _h
  have := hmove.remaining_lt
  omega

def bsonIterInitFind (b : Bson) (key : List UInt8) : Bool := bsonIterFind key (bsonIterInit b)

def idKey : List UInt8 := [0x5F, 0x69, 0x64]

/-- A document with an `_id` in front; `rest` is the bytes of the other elements and the zero byte
that ends them. -/
def idBytes (oid : Bytes 12) (rest : List UInt8) : List UInt8 :=
  toBytes 4 (21 + rest.length) ++ (BsonType.oid.byte :: idKey ++ 0 :: oid.1) ++ rest

theorem wellFramed_idBytes (oid : Bytes 12) {rest : List UInt8} (hlast : rest.getLast? = some 0)
    (hsize : rest.length + 21 < 2 ^ 31) : WellFramed (idBytes oid rest) := by
  have hne : rest ≠ [] := by
    rintro rfl
    cases hlast
  have hlen : (idBytes oid rest).length = 21 + rest.length := by
    simp only [idBytes, List.length_append, List.length_cons, length_toBytes, idKey, oid.2,
      List.length_nil]
  constructor
  · omega
  · omega
  · rw [hlen, idBytes, List.append_assoc, readU32le_toBytes _ (by omega)]
  · rw [idBytes, List.getLast?_append_of_ne_nil _ hne, hlast]

theorem Bson.getLast?_drop_four (d : Bson) : (d.bytes.drop 4).getLast? = some 0 := by
  have hfive := d.framed.five_le
  rw [List.getLast?_drop, if_neg (by omega), d.framed.last]

/-- `_mongoc_write_command_insert_append`: a document as it is sent. One that would get too long for
a `bson_t` with an `_id` is left out after the `_id`. -/
def mongocWriteCommandInsertAppend (oid : Bytes 12) (document : Bson) : Bson :=
  if bsonIterInitFind document idKey then document
  else if h : (document.bytes.drop 4).length + 21 < 2 ^ 31 then
    ⟨idBytes oid (document.bytes.drop 4), wellFramed_idBytes oid document.getLast?_drop_four h⟩
  else ⟨idBytes oid [0], wellFramed_idBytes oid rfl (by decide)⟩

theorem length_insertAppend_le (oid : Bytes 12) (document : Bson) :
    (mongocWriteCommandInsertAppend oid document).bytes.length ≤ document.bytes.length + 17 := by
  have hfive := document.framed.five_le
  have hlen : ∀ rest : List UInt8, (idBytes oid rest).length = 21 + rest.length := by
    intro rest
    simp only [idBytes, List.length_append, List.length_cons, length_toBytes, idKey, oid.2,
      List.length_nil]
  unfold mongocWriteCommandInsertAppend
  split_ifs
  · exact Nat.le_add_right _ _
  · rw [hlen, List.length_drop]
    omega
  · rw [hlen, List.length_singleton]
    omega

/-- What a server says it takes, and the bytes of a message besides the documents. -/
structure Limits where
  maxBsonObjSize : ℕ
  maxMsgSize : ℕ
  maxWriteBatchSize : ℕ
  opmsgOverhead : ℕ

def bsonObjectAllowance : ℕ := 16 * 1024

def tooLargeError (idx : ℕ) (len : ℤ) (maxBsonSize : ℕ) : String :=
  "Document " ++ toString idx ++ " is too large for the cluster. Document is " ++ toString len ++
    " bytes, max is " ++ toString maxBsonSize ++ "."

/-- The variables of the loop of `_mongoc_write_opmsg`, and what the messages so far held. -/
structure Opmsg where
  payloadTotalOffset : ℕ
  payloadBatchSize : ℕ
  documentCount : ℕ
  indexOffset : ℕ
  batches : List (List Bson)

def Opmsg.ship (payload : List UInt8) (st : Opmsg) : Opmsg where
  payloadTotalOffset := (st.payloadTotalOffset + st.payloadBatchSize) % 2 ^ 32
  payloadBatchSize := 0
  documentCount := 0
  indexOffset := st.indexOffset + st.documentCount
  batches := st.batches ++
    [bsonFraming.frames ((payload.drop st.payloadTotalOffset).take st.payloadBatchSize)]

def Opmsg.add (len : ℕ) (st : Opmsg) : Opmsg :=
  { st with
    payloadBatchSize := (st.payloadBatchSize + len) % 2 ^ 32
    documentCount := st.documentCount + 1 }

/-- A round of the loop. An error does not outlive a message that was sent before it. -/
def opmsgRound (lim : Limits) (payload : List UInt8) (st : Opmsg) : Except Failure Opmsg :=
  let len := readI32le (payload.drop ((st.payloadBatchSize + st.payloadTotalOffset) % 2 ^ 32))
  -- an assertion that fails aborts the process
  if len < 0 then .error .unending
  else if (lim.maxBsonObjSize + bsonObjectAllowance : ℕ) < len then
    .error (.raised
      (if st.batches = [] then tooLargeError st.indexOffset len lim.maxBsonObjSize else ""))
  else if (st.payloadBatchSize + lim.opmsgOverhead + len.toNat) % 2 ^ 32 ≤ lim.maxMsgSize ∨
      st.documentCount = 0 then
    let st' := st.add len.toNat
    if st'.documentCount = lim.maxWriteBatchSize ∨
        (st'.payloadBatchSize + st'.payloadTotalOffset) % 2 ^ 32 = payload.length then
      .ok (st'.ship payload)
    else .ok st'
  else .ok (st.ship payload)

/-- The loop of `_mongoc_write_opmsg`. Running out of `fuel` counts as not ending. -/
def opmsgRounds (lim : Limits) (payload : List UInt8) : ℕ → Opmsg → Sending Bson
  | 0, st => ⟨st.batches, some .unending⟩
  | fuel + 1, st =>
    match opmsgRound lim payload st with
    | .error failure => ⟨st.batches, some failure⟩
    | .ok st' =>
      if st'.payloadTotalOffset < payload.length then opmsgRounds lim payload fuel st'
      else ⟨st'.batches, none⟩

/-- `_mongoc_write_opmsg`: below 4 GiB a round adds a document or is followed by one that does. -/
def mongocWriteOpmsg (lim : Limits) (ds : List Bson) : Sending Bson :=
  opmsgRounds lim (ds.flatMap Bson.bytes) (2 * (ds.flatMap Bson.bytes).length + 2) ⟨0, 0, 0, 0, []⟩

/-! ## Batches below 4 GiB -/

variable {lim : Limits} {st st' : Opmsg} {sent batch rest ds : List Bson} {d : Bson}
  {payload : List UInt8} {fuel : ℕ}

def bytesSize (ds : List Bson) : ℕ := (ds.flatMap Bson.bytes).length

@[simp] theorem bytesSize_nil : bytesSize [] = 0 := rfl

@[simp] theorem bytesSize_cons (d : Bson) (ds : List Bson) :
    bytesSize (d :: ds) = d.bytes.length + bytesSize ds := by
  simp [bytesSize]

@[simp] theorem bytesSize_append (ds ds' : List Bson) :
    bytesSize (ds ++ ds') = bytesSize ds + bytesSize ds' := by
  simp [bytesSize]

/-- Some documents were sent, and some more are in the current batch. -/
structure Opmsg.Holds (st : Opmsg) (sent batch : List Bson) : Prop where
  totalOffset : st.payloadTotalOffset = bytesSize sent
  batchSize : st.payloadBatchSize = bytesSize batch
  count : st.documentCount = batch.length
  flatten : st.batches.flatten = sent

def Limits.Fits (lim : Limits) (d : Bson) : Prop :=
  d.bytes.length ≤ lim.maxBsonObjSize + bsonObjectAllowance

theorem drop_bytesSize (ds ds' : List Bson) :
    ((ds ++ ds').flatMap Bson.bytes).drop (bytesSize ds) = ds'.flatMap Bson.bytes := by
  rw [List.flatMap_append, bytesSize, List.drop_left]

theorem Opmsg.Holds.ship (h : st.Holds sent batch) (hds : ds = sent ++ batch ++ rest)
    (hsize : bytesSize ds < 2 ^ 32) :
    (st.ship (ds.flatMap Bson.bytes)).Holds (sent ++ batch) [] := by
  subst hds
  have hslice : (((sent ++ batch ++ rest).flatMap Bson.bytes).drop st.payloadTotalOffset).take
      st.payloadBatchSize = batch.flatMap Bson.bytes := by
    rw [h.totalOffset, h.batchSize, List.append_assoc, drop_bytesSize, List.flatMap_append,
      bytesSize, List.take_left]
  simp only [bytesSize_append] at hsize
  constructor
  · rw [Opmsg.ship, h.totalOffset, h.batchSize, bytesSize_append, Nat.mod_eq_of_lt (by omega)]
  · rfl
  · rfl
  · rw [Opmsg.ship, hslice, frames_flatMap_bytes, List.flatten_append, h.flatten]
    simp

theorem Opmsg.Holds.add (h : st.Holds sent batch) (hsize : bytesSize (batch ++ [d]) < 2 ^ 32) :
    (st.add d.bytes.length).Holds sent (batch ++ [d]) := by
  simp only [bytesSize_append, bytesSize_cons, bytesSize_nil] at hsize
  constructor
  · exact h.totalOffset
  · rw [Opmsg.add, h.batchSize, bytesSize_append, bytesSize_cons, bytesSize_nil,
      Nat.mod_eq_of_lt (by omega)]
    rfl
  · rw [Opmsg.add, h.count, List.length_append, List.length_singleton]
  · exact h.flatten

/-- A round with a document to come: it is too large, or it goes into the batch and perhaps the
batch out, or the batch goes out before it. -/
theorem opmsgRound_spec (h : st.Holds sent batch) (hds : ds = sent ++ batch ++ d :: rest)
    (hsize : bytesSize ds < 2 ^ 32) :
    (¬ lim.Fits d ∧ ∃ e, opmsgRound lim (ds.flatMap Bson.bytes) st = .error (.raised e)) ∨
      (lim.Fits d ∧ ∃ st', opmsgRound lim (ds.flatMap Bson.bytes) st = .ok st' ∧
        (st'.Holds (sent ++ (batch ++ [d])) [] ∨ (rest ≠ [] ∧ st'.Holds sent (batch ++ [d])) ∨
          (batch ≠ [] ∧ st'.Holds (sent ++ batch) []))) := by
  have hlen : bytesSize ds =
      bytesSize sent + bytesSize batch + (d.bytes.length + bytesSize rest) := by
    rw [hds]
    simp only [bytesSize_append, bytesSize_cons]
  have hread : readI32le ((ds.flatMap Bson.bytes).drop
      ((st.payloadBatchSize + st.payloadTotalOffset) % 2 ^ 32)) = d.bytes.length := by
    rw [h.totalOffset, h.batchSize, Nat.mod_eq_of_lt (by omega), Nat.add_comm, hds,
      ← bytesSize_append, drop_bytesSize, List.flatMap_cons, d.readI32le_append]
  have hbatch : bytesSize (batch ++ [d]) = bytesSize batch + d.bytes.length := by simp
  have hadd := h.add (d := d) (by omega)
  have hds' : ds = sent ++ (batch ++ [d]) ++ rest := by simp [hds]
  simp only [opmsgRound, hread, Int.toNat_natCast]
  rw [if_neg (by omega)]
  by_cases hfits : lim.Fits d
  · refine .inr ⟨hfits, ?_⟩
    rw [if_neg (by rw [Limits.Fits] at hfits; omega)]
    split_ifs with hroom hship
    · exact ⟨_, rfl, .inl (hadd.ship hds' hsize)⟩
    · refine ⟨_, rfl, .inr (.inl ⟨?_, hadd⟩)⟩
      rintro rfl
      refine hship (.inr ?_)
      rw [bytesSize_nil] at hlen
      rw [hadd.batchSize, hadd.totalOffset, ← bytesSize, Nat.mod_eq_of_lt] <;> omega
    · refine ⟨_, rfl, .inr (.inr ⟨?_, h.ship hds hsize⟩)⟩
      rintro rfl
      exact hroom (.inr h.count)
  · refine .inl ⟨hfits, ?_⟩
    rw [if_pos (by rw [Limits.Fits] at hfits; omega)]
    exact ⟨_, rfl⟩

theorem opmsgRounds_of_error {failure : Failure}
    (h : opmsgRound lim payload st = .error failure) :
    opmsgRounds lim payload (fuel + 1) st = ⟨st.batches, some failure⟩ := by
  rw [opmsgRounds, h]

theorem opmsgRounds_of_next (h : opmsgRound lim payload st = .ok st')
    (hlt : st'.payloadTotalOffset < payload.length) :
    opmsgRounds lim payload (fuel + 1) st = opmsgRounds lim payload fuel st' := by
  simp only [opmsgRounds, h, hlt, if_true]

theorem opmsgRounds_of_last (h : opmsgRound lim payload st = .ok st')
    (hle : payload.length ≤ st'.payloadTotalOffset) :
    opmsgRounds lim payload (fuel + 1) st = ⟨st'.batches, none⟩ := by
  simp only [opmsgRounds, h, Nat.not_lt.mpr hle, if_false]

theorem opmsgRounds_spec (h : st.Holds sent batch) (hds : ds = sent ++ batch ++ rest)
    (hne : rest ≠ []) (hsize : bytesSize ds < 2 ^ 32)
    (hfuel : 2 * rest.length + min batch.length 1 ≤ fuel) :
    (∀ d ∈ rest, lim.Fits d) ∧
        (opmsgRounds lim (ds.flatMap Bson.bytes) fuel st).failure = none ∧
        (opmsgRounds lim (ds.flatMap Bson.bytes) fuel st).batches.flatten = ds ∨
      (∃ d ∈ rest, ¬ lim.Fits d) ∧
        ∃ e, (opmsgRounds lim (ds.flatMap Bson.bytes) fuel st).failure = some (.raised e) := by
  induction fuel generalizing st sent batch rest with
  | zero =>
    have := List.length_pos_iff.mpr hne
    omega
  | succ fuel ih =>
    obtain ⟨d, rest, rfl⟩ := List.exists_cons_of_ne_nil hne
    rw [List.length_cons] at hfuel
    have hlen : bytesSize ds =
        bytesSize sent + bytesSize batch + (d.bytes.length + bytesSize rest) := by
      rw [hds]
      simp only [bytesSize_append, bytesSize_cons]
    have hbytes : (ds.flatMap Bson.bytes).length = bytesSize ds := rfl
    have hfive := d.framed.five_le
    rcases opmsgRound_spec h hds hsize with
      ⟨hlarge, e, heq⟩ | ⟨hfits, st', heq, hout | ⟨hne', hin⟩ | ⟨hne', hout⟩⟩
    · rw [opmsgRounds_of_error heq]
      exact .inr ⟨⟨d, List.mem_cons_self, hlarge⟩, e, rfl⟩
    · have hds' : ds = sent ++ (batch ++ [d]) ++ [] ++ rest := by simp [hds]
      have htotal : st'.payloadTotalOffset =
          bytesSize sent + (bytesSize batch + d.bytes.length) := by
        rw [hout.totalOffset]
        simp
      cases rest with
      | nil =>
        rw [bytesSize_nil] at hlen
        rw [opmsgRounds_of_last heq (by omega)]
        refine .inl ⟨by simpa using hfits, rfl, ?_⟩
        rw [hds', List.append_nil, List.append_nil, hout.flatten]
      | cons d' rest =>
        have hfive' := d'.framed.five_le
        rw [bytesSize_cons] at hlen
        rw [opmsgRounds_of_next heq (by omega)]
        rw [List.length_cons] at hfuel
        exact (ih hout hds' (List.cons_ne_nil d' rest) (by simp; omega)).imp
          (And.imp_left fun hall => List.forall_mem_cons.mpr ⟨hfits, hall⟩)
          (And.imp_left fun ⟨x, hmem, hx⟩ => ⟨x, List.mem_cons_of_mem _ hmem, hx⟩)
    · have hds' : ds = sent ++ (batch ++ [d]) ++ rest := by simp [hds]
      have htotal := hin.totalOffset
      rw [opmsgRounds_of_next heq (by omega)]
      exact (ih hin hds' hne' (by simp; omega)).imp
        (And.imp_left fun hall => List.forall_mem_cons.mpr ⟨hfits, hall⟩)
        (And.imp_left fun ⟨x, hmem, hx⟩ => ⟨x, List.mem_cons_of_mem _ hmem, hx⟩)
    · have hds' : ds = sent ++ batch ++ [] ++ d :: rest := by simp [hds]
      have htotal := hout.totalOffset
      rw [bytesSize_append] at htotal
      have hpos := List.length_pos_iff.mpr hne'
      rw [opmsgRounds_of_next heq (by omega)]
      exact ih hout hds' hne (by simp; omega)

/-- Below 4 GiB all documents are sent, in order, unless one of them is too large. -/
theorem mongocWriteOpmsg_spec (hne : ds ≠ []) (hsize : bytesSize ds < 2 ^ 32) :
    (∀ d ∈ ds, lim.Fits d) ∧ (mongocWriteOpmsg lim ds).failure = none ∧
        (mongocWriteOpmsg lim ds).batches.flatten = ds ∨
      (∃ d ∈ ds, ¬ lim.Fits d) ∧
        ∃ e, (mongocWriteOpmsg lim ds).failure = some (.raised e) := by
  have hlen : ds.length ≤ bytesSize ds := by
    have h := bsonFraming.length_frames_le (ds.flatMap Bson.bytes)
    rwa [frames_flatMap_bytes] at h
  rw [bytesSize] at hlen
  have hstart : Opmsg.Holds ⟨0, 0, 0, 0, []⟩ [] [] := ⟨rfl, rfl, rfl, rfl⟩
  exact opmsgRounds_spec hstart rfl hne hsize (by rw [List.length_nil]; omega)

/-! ## Batches from 4 GiB on -/

theorem payloadTotalOffset_lt (hlt : st.payloadTotalOffset < 2 ^ 32)
    (h : opmsgRound lim payload st = .ok st') : st'.payloadTotalOffset < 2 ^ 32 := by
  have hship : ∀ st : Opmsg, (st.ship payload).payloadTotalOffset < 2 ^ 32 := fun st =>
    Nat.mod_lt _ (by decide)
  simp only [opmsgRound] at h
  split_ifs at h <;> cases h
  · exact hship _
  · exact hlt
  · exact hship _

/-- From 4 GiB on the loop never gets done. -/
theorem opmsgRounds_of_large (hsize : 2 ^ 32 ≤ payload.length)
    (hlt : st.payloadTotalOffset < 2 ^ 32) : (opmsgRounds lim payload fuel st).failure ≠ none := by
  induction fuel generalizing st with
  | zero => simp [opmsgRounds]
  | succ fuel ih =>
    cases heq : opmsgRound lim payload st with
    | error failure =>
      rw [opmsgRounds_of_error heq]
      simp
    | ok st' =>
      have hlt' := payloadTotalOffset_lt hlt heq
      rw [opmsgRounds_of_next heq (by omega)]
      exact ih hlt'

theorem mongocWriteOpmsg_complete (lim : Limits) (ds : List Bson)
    (h : (mongocWriteOpmsg lim ds).failure = none) :
    (mongocWriteOpmsg lim ds).batches.flatten = ds := by
  rcases eq_or_ne ds [] with rfl | hne
  · have hround : opmsgRound lim [] ⟨0, 0, 0, 0, []⟩ = .ok (Opmsg.ship [] ⟨0, 0, 1, 0, []⟩) := by
      have hread : readI32le [] = 0 := by decide
      simp only [opmsgRound, List.drop_nil, hread]
      rw [if_neg (by omega), if_neg (by omega)]
      simp [Opmsg.add]
    rw [mongocWriteOpmsg, List.flatMap_nil, opmsgRounds_of_last hround (Nat.zero_le _)]
    simp [Opmsg.ship]
  · rcases Nat.lt_or_ge (bytesSize ds) (2 ^ 32) with hsmall | hlarge
    · rcases mongocWriteOpmsg_spec hne hsmall with ⟨-, -, hflatten⟩ | ⟨-, e, he⟩
      · exact hflatten
      · rw [h] at he
        cases he
    · exact absurd h (opmsgRounds_of_large hlarge (by decide))

/-- The driver as it is, with a server behind it. -/
def Gate.behindDriver (gate : Gate Bson String) (lim : Limits) : Server Bson where
  gate := gate
  send := mongocWriteOpmsg lim
  complete := mongocWriteOpmsg_complete lim

end Mongolite
