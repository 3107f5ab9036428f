import Mongolite.Library.Admission
import Mongolite.Library.Pages

/-! # Bulk operations of the driver

A bulk operation collects documents and sends them in one `execute`, which may
take several messages. The server is a gate that sees what the collection
already holds; it stops at the first document of a message that it refuses,
unless the operation is unordered. Documents are taken with the `_id` that the
driver gives to those without one.
-/

namespace Mongolite

variable {δ : Type}

structure WriteError where
  index : ℕ
  errmsg : String
  deriving DecidableEq, Repr

structure Reply where
  nInserted : ℕ
  nMatched : ℕ
  nModified : ℕ
  nRemoved : ℕ
  nUpserted : ℕ
  writeErrors : List WriteError
  deriving DecidableEq, Repr

/-- The one bulk option that matters here. -/
structure BulkOpts where
  ordered : Bool

/-- `_mongoc_bulk_opts_parse`: bulk operations are ordered unless the options say otherwise. -/
def mongocBulkOptsParse : Option BulkOpts → Bool
  | none => true
  | some opts => opts.ordered

/-- A bulk operation under construction, with the error a bad insert leaves in it. -/
structure BulkOperation (δ : Type) where
  ordered : Bool
  commands : List δ
  error : Option String

def mongocCollectionCreateBulkOperationWithOpts (opts : Option BulkOpts) : BulkOperation δ :=
  ⟨mongocBulkOptsParse opts, [], none⟩

/-- Append a document that passes validation, as it is sent, unless an earlier one already
failed. -/
def mongocBulkOperationInsert (validate : δ → Option String) (bulk : BulkOperation δ)
    (d sent : δ) : BulkOperation δ :=
  match bulk.error with
  | some _ => bulk
  | none =>
    match validate d with
    | some e => { bulk with error := some ("invalid document for insert: " ++ e) }
    | none => { bulk with commands := bulk.commands ++ [sent] }

def writeErrorsOf (vs : List (Option String)) : List WriteError :=
  vs.zipIdx.filterMap fun (v, i) => v.map fun e => ⟨i, e⟩

/-- The message made of a reply's write errors: alone as it is, several quoted in a row. -/
def setErrorFromResponse : List WriteError → Option String
  | [] => none
  | [e] => some e.errmsg
  | es => some ("Multiple write errors: " ++
      ", ".intercalate (es.map fun e => "\"" ++ e.errmsg ++ "\""))

/-- How a call gives no value: it raises, or it never returns. -/
inductive Failure
  | raised (e : String)
  | unending
  deriving DecidableEq, Repr

/-- How the documents of a bulk operation are sent: each batch in a message of its own, up to a
failure of the driver. -/
structure Sending (δ : Type) where
  batches : List (List δ)
  failure : Option Failure

/-- A server, and how the driver sends the documents of a bulk operation to it: all of them, in
order, unless that fails. -/
structure Server (δ : Type) where
  gate : Gate δ String
  send : List δ → Sending δ
  complete : ∀ ds, (send ds).failure = none → (send ds).batches.flatten = ds

/-- The driver as it is where no bulk operation needs more than one message: an ordered operation
stops at the first document that the server refuses. -/
def Gate.inOneMessage (gate : Gate δ String) : Server δ where
  gate := gate
  send ds := ⟨[ds], none⟩
  complete ds _ := by simp

/-- The driver where a message takes up to `n` documents. -/
def Gate.inMessagesOf (gate : Gate δ String) (n : ℕ) (hn : 0 < n) : Server δ where
  gate := gate
  send ds := ⟨pages n ds, none⟩
  complete ds _ := flatten_pages hn ds

structure Answer (δ : Type) where
  nInserted : ℕ
  writeErrors : List WriteError
  docs : List δ

def answerMessage (gate : Gate δ String) (ordered : Bool) (ds db : List δ) : Answer δ :=
  let vs := gate.verdicts db ds
  ⟨if ordered then gate.admitted db ds else gate.accepted db ds,
    writeErrorsOf (if ordered then vs.take (gate.admitted db ds + 1) else vs),
    if ordered then gate.offerUntil db ds else gate.offerAll db ds⟩

/-- `_mongoc_write_result_merge_arrays`: a position in a message as one in the operation. -/
def WriteError.shift (offset : ℕ) (e : WriteError) : WriteError :=
  { e with index := e.index + offset }

/-- The messages of an operation and their answers. The driver stops between them only where a
command fails as a whole, which one with write errors does not. -/
def answerMessages (gate : Gate δ String) (ordered : Bool) : ℕ → List (List δ) → List δ → Answer δ
  | _, [], db => ⟨0, [], db⟩
  | offset, b :: bs, db =>
    let first := answerMessage gate ordered b db
    let rest := answerMessages gate ordered (offset + b.length) bs first.docs
    ⟨first.nInserted + rest.nInserted,
      first.writeErrors.map (WriteError.shift offset) ++ rest.writeErrors, rest.docs⟩

/-- What an execution leaves: the reply (`none` is the empty document), the failure of an
unsuccessful one, and the collection. -/
structure Executed (δ : Type) where
  reply : Option Reply
  failure : Option Failure
  docs : List δ

/-- An operation fails by its write errors or by how it is sent. -/
def failureOf (es : List WriteError) (sent : Option Failure) : Option Failure :=
  match sent with
  | some .unending => some .unending
  | sent => ((setErrorFromResponse es).map .raised).or sent

def executeInserts (gate : Gate δ String) (ordered : Bool) (x : Sending δ) (db : List δ) :
    Executed δ :=
  let a := answerMessages gate ordered 0 x.batches db
  ⟨some ⟨a.nInserted, 0, 0, 0, 0, a.writeErrors⟩, failureOf a.writeErrors x.failure, a.docs⟩

def mongocBulkOperationExecute (gate : Gate δ String) (send : List δ → Sending δ)
    (bulk : BulkOperation δ) (db : List δ) : Executed δ :=
  match bulk.error with
  | some e => ⟨none, some (.raised e), db⟩
  | none =>
    match bulk.commands with
    | [] => ⟨none, some (.raised "Cannot do an empty bulk write"), db⟩
    | ds => executeInserts gate bulk.ordered (send ds) db

def AllValid (validate : δ → Option String) (ds : List δ) : Prop := ∀ d ∈ ds, validate d = none

/-- Documents with what is sent for them, given to a bulk operation in turn. -/
def insertAll (validate : δ → Option String) (bulk : BulkOperation δ) (ds : List (δ × δ)) :
    BulkOperation δ :=
  ds.foldl (fun bulk d => mongocBulkOperationInsert validate bulk d.1 d.2) bulk

@[simp] theorem insertAll_nil (validate : δ → Option String) (bulk : BulkOperation δ) :
    insertAll validate bulk [] = bulk := rfl

theorem insertAll_cons (validate : δ → Option String) (bulk : BulkOperation δ) (d : δ × δ)
    (ds : List (δ × δ)) : insertAll validate bulk (d :: ds) =
      insertAll validate (mongocBulkOperationInsert validate bulk d.1 d.2) ds := rfl

theorem insertAll_of_valid (validate : δ → Option String) (ordered : Bool) (cs : List δ)
    (ds : List (δ × δ)) (h : AllValid validate (ds.map Prod.fst)) :
    insertAll validate ⟨ordered, cs, none⟩ ds = ⟨ordered, cs ++ ds.map Prod.snd, none⟩ := by
  induction ds generalizing cs with
  | nil => simp
  | cons d ds ih =>
    have hd : validate d.1 = none := h d.1 (by simp)
    have ht : AllValid validate (ds.map Prod.fst) := fun x hx => h x (List.mem_cons_of_mem _ hx)
    simp [insertAll_cons, mongocBulkOperationInsert, hd, ih _ ht]

theorem insertAll_of_error (validate : δ → Option String) (bulk : BulkOperation δ)
    (ds : List (δ × δ)) {e : String} (h : bulk.error = some e) :
    insertAll validate bulk ds = bulk := by
  induction ds with
  | nil => rfl
  | cons d ds ih =>
    have hsame : mongocBulkOperationInsert validate bulk d.1 d.2 = bulk := by
      simp [mongocBulkOperationInsert, h]
    rwa [insertAll_cons, hsame]

/-- One document that fails validation spoils the whole bulk operation. -/
theorem insertAll_of_invalid (validate : δ → Option String) (bulk : BulkOperation δ)
    (ds : List (δ × δ)) (h : ¬ AllValid validate (ds.map Prod.fst)) :
    ∃ e, (insertAll validate bulk ds).error = some e := by
  induction ds generalizing bulk with
  | nil => exact absurd (by simp [AllValid]) h
  | cons d ds ih =>
    rw [insertAll_cons]
    cases hb : bulk.error with
    | some e =>
      have hsame : mongocBulkOperationInsert validate bulk d.1 d.2 = bulk := by
        simp [mongocBulkOperationInsert, hb]
      exact ⟨e, by rw [hsame, insertAll_of_error validate bulk ds hb, hb]⟩
    | none =>
      cases hd : validate d.1 with
      | some e =>
        have herror : (mongocBulkOperationInsert validate bulk d.1 d.2).error =
            some ("invalid document for insert: " ++ e) := by
          simp [mongocBulkOperationInsert, hb, hd]
        exact ⟨_, by rw [insertAll_of_error validate _ ds herror, herror]⟩
      | none =>
        refine ih _ fun ht => h fun x hx => ?_
        rcases List.mem_cons.mp hx with rfl | hx
        · exact hd
        · exact ht x hx

theorem execute_of_commands (gate : Gate δ String) (send : List δ → Sending δ) (ordered : Bool)
    {ds : List δ} (db : List δ) (h : ds ≠ []) :
    mongocBulkOperationExecute gate send ⟨ordered, ds, none⟩ db =
      executeInserts gate ordered (send ds) db := by
  cases ds with
  | nil => exact absurd rfl h
  | cons d ds => rfl

theorem execute_of_error (gate : Gate δ String) (send : List δ → Sending δ)
    {bulk : BulkOperation δ} {e : String} (db : List δ) (h : bulk.error = some e) :
    mongocBulkOperationExecute gate send bulk db = ⟨none, some (.raised e), db⟩ := by
  simp [mongocBulkOperationExecute, h]

@[simp] theorem setErrorFromResponse_eq_none {es : List WriteError} :
    setErrorFromResponse es = none ↔ es = [] := by
  rcases es with _ | ⟨e, _ | ⟨e', es⟩⟩ <;> simp [setErrorFromResponse]

theorem failureOf_eq_none_iff {es : List WriteError} {sent : Option Failure} :
    failureOf es sent = none ↔ es = [] ∧ sent = none := by
  rw [← setErrorFromResponse_eq_none]
  rcases sent with _ | _ | _ <;> simp [failureOf]

theorem failureOf_eq_unending_iff {es : List WriteError} {sent : Option Failure} :
    failureOf es sent = some .unending ↔ sent = some .unending := by
  rcases sent with _ | _ | _ <;> cases h : setErrorFromResponse es <;> simp [failureOf, h]

theorem writeErrorsOf_eq_nil {vs : List (Option String)} :
    writeErrorsOf vs = [] ↔ ∀ v ∈ vs, v = none := by
  simp only [writeErrorsOf, List.filterMap_eq_nil_iff, Prod.forall, Option.map_eq_none_iff]
  constructor
  · intro h v hv
    obtain ⟨i, hi, rfl⟩ := List.getElem_of_mem hv
    exact h _ i (List.mk_mem_zipIdx_iff_getElem?.mpr (List.getElem?_eq_getElem hi))
  · intro h v i hv
    exact h v (List.mem_of_getElem? (List.mk_mem_zipIdx_iff_getElem?.mp hv))

theorem take_verdicts (gate : Gate δ String) (db ds : List δ) :
    (gate.verdicts db ds).take (gate.admitted db ds + 1) =
      List.replicate (gate.admitted db ds) none ++ ((gate.refusal db ds).map some).toList := by
  induction ds generalizing db with
  | nil => simp
  | cons d ds ih =>
    cases hd : gate db d with
    | none => simp [Gate.verdicts, Gate.admitted, Gate.refusal, hd, ih, List.replicate_succ]
    | some e => simp [Gate.verdicts, Gate.admitted, Gate.refusal, hd]

/-- An ordered execution reports at most one write error, at the first refused document. -/
theorem writeErrorsOf_ordered (gate : Gate δ String) (db ds : List δ) :
    writeErrorsOf ((gate.verdicts db ds).take (gate.admitted db ds + 1)) =
      ((gate.refusal db ds).map fun e => ⟨gate.admitted db ds, e⟩).toList := by
  rw [take_verdicts, writeErrorsOf, List.zipIdx_append, List.filterMap_append]
  have hnil : (List.zipIdx (List.replicate (gate.admitted db ds) (none : Option String))).filterMap
      (fun (v, i) => v.map fun e => (⟨i, e⟩ : WriteError)) = [] :=
    writeErrorsOf_eq_nil.mpr fun v hv => List.eq_of_mem_replicate hv
  rw [hnil]
  cases gate.refusal db ds <;> simp

/-! ## Ordered operations in messages -/

/-- The collection after batches are offered in turn, each up to its first refused document. -/
def Gate.offerBatches (gate : Gate δ String) : List (List δ) → List δ → List δ
  | [], db => db
  | b :: bs, db => gate.offerBatches bs (gate.offerUntil db b)

/-- The positions of the documents that are refused then; the batches start at `offset`. -/
def Gate.refusedPositions (gate : Gate δ String) : ℕ → List (List δ) → List δ → List ℕ
  | _, [], _ => []
  | offset, b :: bs, db =>
    ((gate.refusal db b).map fun _ => offset + gate.admitted db b).toList ++
      gate.refusedPositions (offset + b.length) bs (gate.offerUntil db b)

theorem answerMessages_ordered (gate : Gate δ String) (offset : ℕ) (bs : List (List δ))
    (db : List δ) :
    (answerMessages gate true offset bs db).docs = gate.offerBatches bs db ∧
      (answerMessages gate true offset bs db).writeErrors.map WriteError.index =
        gate.refusedPositions offset bs db := by
  induction bs generalizing offset db with
  | nil => exact ⟨rfl, rfl⟩
  | cons b bs ih =>
    obtain ⟨hdocs, hindex⟩ := ih (offset + b.length) (gate.offerUntil db b)
    have hfirst : (answerMessage gate true b db).docs = gate.offerUntil db b := rfl
    rw [answerMessages, Gate.offerBatches, Gate.refusedPositions, hfirst]
    refine ⟨hdocs, ?_⟩
    simp only [List.map_append, hindex, answerMessage, if_true, writeErrorsOf_ordered]
    cases gate.refusal db b <;> simp [WriteError.shift, Nat.add_comm]

theorem refusedPositions_eq_nil_iff (gate : Gate δ String) (offset : ℕ) (bs : List (List δ))
    (db : List δ) :
    gate.refusedPositions offset bs db = [] ↔ gate.refusal db bs.flatten = none := by
  induction bs generalizing offset db with
  | nil => simp [Gate.refusedPositions]
  | cons b bs ih =>
    rw [Gate.refusedPositions, List.flatten_cons]
    cases hr : gate.refusal db b with
    | none =>
      have hall := (gate.refusal_eq_none_iff db b).mp hr
      rw [gate.refusal_append_of_none hr, ← ih (offset + b.length) (db ++ b), Gate.offerUntil, hall,
        List.take_length]
      rfl
    | some e =>
      rw [(gate.refusal_append_of_some hr).1]
      simp

theorem offerBatches_of_admitted (gate : Gate δ String) {bs : List (List δ)} {db : List δ}
    (h : gate.refusal db bs.flatten = none) : gate.offerBatches bs db = db ++ bs.flatten := by
  induction bs generalizing db with
  | nil => simp [Gate.offerBatches]
  | cons b bs ih =>
    rw [List.flatten_cons] at h ⊢
    cases hr : gate.refusal db b with
    | none =>
      have hall := (gate.refusal_eq_none_iff db b).mp hr
      rw [gate.refusal_append_of_none hr] at h
      rw [Gate.offerBatches, Gate.offerUntil, hall, List.take_length, ih h, List.append_assoc]
    | some e =>
      rw [(gate.refusal_append_of_some hr).1] at h
      cases h

theorem prefix_offerBatches (gate : Gate δ String) (bs : List (List δ)) (db : List δ) :
    db <+: gate.offerBatches bs db := by
  induction bs generalizing db with
  | nil => exact List.prefix_rfl
  | cons b bs ih => exact (List.prefix_append db _).trans (ih (gate.offerUntil db b))

theorem offerBatches_eq_self_iff (gate : Gate δ String) (bs : List (List δ)) (db : List δ) :
    gate.offerBatches bs db = db ↔ ∀ b ∈ bs, gate.admitted db b = 0 := by
  induction bs with
  | nil => simp [Gate.offerBatches]
  | cons b bs ih =>
    rw [Gate.offerBatches, List.forall_mem_cons, ← ih, ← gate.offerUntil_eq_self_iff]
    constructor
    · intro h
      have hfirst : gate.offerUntil db b = db := by
        refine ((List.prefix_append db _).eq_of_length_le ?_).symm
        conv_rhs => rw [← h]
        exact (prefix_offerBatches gate bs (gate.offerUntil db b)).length_le
      exact ⟨hfirst, by rwa [hfirst] at h⟩
    · rintro ⟨hfirst, hrest⟩
      rwa [hfirst]

def Server.Takes (s : Server δ) (db ds : List δ) : Prop :=
  (s.send ds).failure = none ∧ s.gate.refusal db ds = none

variable {s : Server δ}

theorem executeInserts_failure_eq_none_iff (s : Server δ) (ds db : List δ) :
    (executeInserts s.gate true (s.send ds) db).failure = none ↔ s.Takes db ds := by
  have hindex := (answerMessages_ordered s.gate 0 (s.send ds).batches db).2
  have hnone : (answerMessages s.gate true 0 (s.send ds).batches db).writeErrors = [] ↔
      s.gate.refusal db (s.send ds).batches.flatten = none := by
    rw [← refusedPositions_eq_nil_iff s.gate 0, ← hindex, List.map_eq_nil_iff]
  simp only [executeInserts, failureOf_eq_none_iff, hnone, Server.Takes]
  constructor
  · rintro ⟨hr, hs⟩
    exact ⟨hs, by rwa [s.complete ds hs] at hr⟩
  · rintro ⟨hs, hr⟩
    exact ⟨by rwa [s.complete ds hs], hs⟩

theorem executeInserts_docs_of_takes {ds db : List δ} (h : s.Takes db ds) :
    (executeInserts s.gate true (s.send ds) db).docs = db ++ ds := by
  obtain ⟨hsent, hr⟩ := h
  have hdocs := (answerMessages_ordered s.gate 0 (s.send ds).batches db).1
  rwa [offerBatches_of_admitted s.gate (by rwa [s.complete ds hsent]),
    s.complete ds hsent] at hdocs

end Mongolite
