import Mongolite.Driver.Bulk
import Mongolite.Library.CText
import Mongolite.Library.Pages

/-! # Inserting R data

`insert` sends a data frame page by page, and a character vector of JSON strings
in one page. Each page is one bulk operation created with the default options;
`stop_on_error` decides whether a failed execution raises or only warns. Where the
driver needs one message for a page, the page stops at the first refused document.
-/

namespace Mongolite

variable {ρ δ : Type}

/-- How R data becomes BSON: jsonlite's encoder and validator, the driver's parser and its
validation of new documents. -/
structure Codec (ρ δ : Type) where
  mongoToJson : ρ → Except String String
  validateJson : String → Bool
  bsonNewFromJson : String → Except String δ
  validate : δ → Option String

/-- What an insert acts on: the documents of the collection and the warnings given so far. -/
structure World (δ : Type) where
  docs : List δ
  warnings : List String

namespace Codec

variable (c : Codec ρ δ)

/-- The document a JSON string stands for, if the client can insert it. -/
def encodeJson (s : String) : Option δ :=
  match c.bsonNewFromJson s with
  | .error _ => none
  | .ok d => if c.validate d = none then some d else none

def encode (r : ρ) : Option δ :=
  match c.mongoToJson r with
  | .error _ => none
  | .ok s => c.encodeJson s

end Codec

/-- Parse the strings in turn and give each document to the bulk operation. -/
def fillBulk (c : Codec ρ δ) : BulkOperation δ → List String → Except String (BulkOperation δ)
  | bulk, [] => .ok bulk
  | bulk, s :: ss =>
    match c.bsonNewFromJson s with
    | .error e => .error e
    | .ok b => fillBulk c (mongocBulkOperationInsert c.validate bulk b b) ss

/-- What the insert of a page makes of an execution: one that fails raises or only warns. -/
def finishPage (stopOnError : Bool) (x : Executed δ) (w : World δ) :
    Except Failure (Option Reply) × World δ :=
  match x.failure with
  | none => (.ok x.reply, { w with docs := x.docs })
  | some .unending => (.error .unending, { w with docs := x.docs })
  | some (.raised e) =>
    if stopOnError then (.error (.raised e), { w with docs := x.docs })
    else (.ok x.reply,
      ⟨x.docs, w.warnings ++ ["Not all inserts were successful: " ++ e ++ "\n"]⟩)

def rMongoCollectionInsertPage (c : Codec ρ δ) (s : Server δ) (jsonVec : List String)
    (stopOnError : Bool) (w : World δ) : Except Failure (Option Reply) × World δ :=
  if jsonVec.isEmpty then
    (.error (.raised "json_vec must be character string of at least length 1"), w)
  else
    match fillBulk c (mongocCollectionCreateBulkOperationWithOpts none) jsonVec with
    | .error e => (.error (.raised e), w)
    | .ok bulk => finishPage stopOnError (mongocBulkOperationExecute s.gate s.send bulk w.docs) w

/-- Encode the rows of a page, as `mongo_to_json(x, collapse = FALSE)` does. -/
def mongoToJsonPage (c : Codec ρ δ) : List ρ → Except String (List String)
  | [] => .ok []
  | r :: rs =>
    match c.mongoToJson r with
    | .error e => .error e
    | .ok s =>
      match mongoToJsonPage c rs with
      | .error e => .error e
      | .ok ss => .ok (s :: ss)

/-- The page function of `mongo_stream_out`. -/
def insertRows (c : Codec ρ δ) (s : Server δ) (stopOnError : Bool) (page : List ρ)
    (w : World δ) : Except Failure (Option Reply) × World δ :=
  match mongoToJsonPage c page with
  | .error e => (.error (.raised e), w)
  | .ok json => rMongoCollectionInsertPage c s json stopOnError w

structure Summary where
  nInserted : ℕ
  nMatched : ℕ
  nRemoved : ℕ
  nUpserted : ℕ
  writeErrors : List WriteError
  deriving DecidableEq, Repr

/-- Add up the replies of the pages; an empty reply has no field to extract. -/
def summarise : List (Option Reply) → Except String Summary
  | [] => .ok ⟨0, 0, 0, 0, []⟩
  | none :: _ => .error "values must be length 1"
  | some r :: rs =>
    match summarise rs with
    | .error e => .error e
    | .ok s => .ok ⟨r.nInserted + s.nInserted, r.nMatched + s.nMatched, r.nRemoved + s.nRemoved,
        r.nUpserted + s.nUpserted, r.writeErrors ++ s.writeErrors⟩

def mongoStreamOut (c : Codec ρ δ) (s : Server δ) (data : List ρ) (pagesize : ℕ)
    (stopOnError : Bool) (w : World δ) : Except Failure Summary × World δ :=
  match runPages (insertRows c s stopOnError) (pages pagesize data) w with
  | (.error e, w') => (.error e, w')
  | (.ok out, w') => ((summarise out).mapError .raised, w')

inductive InsertData (ρ δ : Type) where
  | dataFrame (rows : List ρ)
  | namedList (x : ρ)
  | character (json : List String)
  | bson (b : δ)
  | other

inductive Inserted where
  | summary (s : Summary)
  | page (reply : Option Reply)
  | success

def mongoCollectionInsertBson (c : Codec ρ δ) (gate : Gate δ String) (b : δ) (w : World δ) :
    Except Failure Inserted × World δ :=
  match c.validate b with
  | some e => (.error (.raised ("invalid document for insert: " ++ e)), w)
  | none =>
    match gate w.docs b with
    | some e => (.error (.raised e), w)
    | none => (.ok .success, { w with docs := w.docs ++ [b] })

/-- The one-based positions of the elements that fail a check, as the error text lists them. -/
def failingElements (check : String → Bool) (data : List String) : String :=
  ", ".intercalate
    ((data.zipIdx.filter fun (s, _) => !check s).map fun (_, i) => toString (i + 1))

/-- The pattern `^\s*\{`. -/
def startsWithBrace (s : String) : Bool := (s.toList.dropWhile isSpace).head? == some '{'

def insert (c : Codec ρ δ) (s : Server δ) (data : InsertData ρ δ) (pagesize : ℕ)
    (stopOnError : Bool) (w : World δ) : Except Failure Inserted × World δ :=
  match data with
  | .dataFrame rows =>
    let (out, w') := mongoStreamOut c s rows pagesize stopOnError w
    (out.map .summary, w')
  | .namedList x =>
    match c.mongoToJson x with
    | .error e => (.error (.raised e), w)
    | .ok json =>
      let (out, w') := rMongoCollectionInsertPage c s [json] stopOnError w
      (out.map .page, w')
  | .character json =>
    if !json.all c.validateJson then
      (.error (.raised ("Argument 'data' is a character vector but contains invalid JSON " ++
        "at elements: " ++ failingElements c.validateJson json)), w)
    else if !json.all startsWithBrace then
      (.error (.raised ("Argument 'data' contains strings that are not JSON objects " ++
        "at elements: " ++ failingElements startsWithBrace json)), w)
    else
      let (out, w') := rMongoCollectionInsertPage c s json stopOnError w
      (out.map .page, w')
  | .bson b => mongoCollectionInsertBson c s.gate b w
  | .other => (.error (.raised ("Argument 'data' must be a data frame, named list, " ++
      "or character vector with json strings")), w)

/-- Every row stands for a document the client can insert. -/
def Codec.Encodable (c : Codec ρ δ) (rows : List ρ) : Prop := ∀ r ∈ rows, (c.encode r).isSome

instance (c : Codec ρ δ) (rows : List ρ) : Decidable (c.Encodable rows) :=
  inferInstanceAs (Decidable (∀ r ∈ rows, (c.encode r).isSome))

def Codec.EncodableJson (c : Codec ρ δ) (json : List String) : Prop :=
  ∀ s ∈ json, (c.encodeJson s).isSome

def Codec.docsOf (c : Codec ρ δ) (rows : List ρ) : List δ := rows.filterMap c.encode

def Codec.docsOfJson (c : Codec ρ δ) (json : List String) : List δ := json.filterMap c.encodeJson

variable {c : Codec ρ δ} {s : Server δ} {gate : Gate δ String} {rows : List ρ} {json : List String}
  {w : World δ} {stop : Bool}

theorem encodeJson_eq_some {s : String} {d : δ} :
    c.encodeJson s = some d ↔ c.bsonNewFromJson s = .ok d ∧ c.validate d = none := by
  unfold Codec.encodeJson
  cases h : c.bsonNewFromJson s with
  | error e => simp
  | ok d' =>
    by_cases hv : c.validate d' = none
    · simp only [hv, if_true, Option.some.injEq, Except.ok.injEq]
      constructor
      · rintro rfl; exact ⟨rfl, hv⟩
      · exact And.left
    · simp only [hv, if_false, Except.ok.injEq, reduceCtorEq, false_iff, not_and]
      rintro rfl
      exact hv

theorem length_docsOf (h : c.Encodable rows) : (c.docsOf rows).length = rows.length := by
  induction rows with
  | nil => rfl
  | cons r rs ih =>
    obtain ⟨d, hd⟩ := Option.isSome_iff_exists.mp (h r List.mem_cons_self)
    have ht : c.Encodable rs := fun x hx => h x (List.mem_cons_of_mem _ hx)
    simpa [Codec.docsOf, hd] using ih ht

theorem length_docsOfJson (h : c.EncodableJson json) :
    (c.docsOfJson json).length = json.length := by
  induction json with
  | nil => rfl
  | cons s ss ih =>
    obtain ⟨d, hd⟩ := Option.isSome_iff_exists.mp (h s List.mem_cons_self)
    have ht : c.EncodableJson ss := fun x hx => h x (List.mem_cons_of_mem _ hx)
    simpa [Codec.docsOfJson, hd] using ih ht

/-- Filling a bulk operation parses the strings, whether or not they then validate. -/
theorem fillBulk_ok {bulk bulk' : BulkOperation δ} (h : fillBulk c bulk json = .ok bulk') :
    ∃ ds : List δ, json.map c.bsonNewFromJson = ds.map .ok ∧
      bulk' = insertAll c.validate bulk (ds.map fun d => (d, d)) := by
  induction json generalizing bulk with
  | nil => exact ⟨[], rfl, by simpa [fillBulk] using h.symm⟩
  | cons s ss ih =>
    cases hs : c.bsonNewFromJson s with
    | error e => simp [fillBulk, hs] at h
    | ok d =>
      simp only [fillBulk, hs] at h
      obtain ⟨ds, hds, rfl⟩ := ih h
      exact ⟨d :: ds, by simp [hs, hds], rfl⟩

theorem fillBulk_of_encodable (h : c.EncodableJson json) (cs : List δ) (ordered : Bool) :
    fillBulk c ⟨ordered, cs, none⟩ json = .ok ⟨ordered, cs ++ c.docsOfJson json, none⟩ := by
  induction json generalizing cs with
  | nil => simp [fillBulk, Codec.docsOfJson]
  | cons s ss ih =>
    obtain ⟨d, hd⟩ := Option.isSome_iff_exists.mp (h s List.mem_cons_self)
    obtain ⟨hp, hv⟩ := encodeJson_eq_some.mp hd
    have ht : c.EncodableJson ss := fun x hx => h x (List.mem_cons_of_mem _ hx)
    simp [fillBulk, hp, mongocBulkOperationInsert, hv, ih ht, Codec.docsOfJson, hd]

/-- What the execution of the documents of a page amounts to. -/
def bulkPage (s : Server δ) (stop : Bool) (ds : List δ) (w : World δ) :
    Except Failure (Option Reply) × World δ :=
  finishPage stop (executeInserts s.gate true (s.send ds) w.docs) w

def orderedPage (gate : Gate δ String) (stop : Bool) (ds : List δ) (w : World δ) :
    Except Failure (Option Reply) × World δ :=
  let k := gate.admitted w.docs ds
  let docs := gate.offerUntil w.docs ds
  match gate.refusal w.docs ds with
  | none => (.ok (some ⟨k, 0, 0, 0, 0, []⟩), { w with docs := docs })
  | some e =>
    if stop then (.error (.raised e), { w with docs := docs })
    else (.ok (some ⟨k, 0, 0, 0, 0, [⟨k, e⟩]⟩),
      ⟨docs, w.warnings ++ ["Not all inserts were successful: " ++ e ++ "\n"]⟩)

theorem insertPage_of_encodable (hne : json ≠ []) (h : c.EncodableJson json) :
    rMongoCollectionInsertPage c s json stop w = bulkPage s stop (c.docsOfJson json) w := by
  have hds : c.docsOfJson json ≠ [] := by
    rw [← List.length_pos_iff, length_docsOfJson h]
    exact List.length_pos_iff.mpr hne
  rw [rMongoCollectionInsertPage, if_neg (by simpa using hne),
    mongocCollectionCreateBulkOperationWithOpts, mongocBulkOptsParse,
    fillBulk_of_encodable h [] true, List.nil_append]
  simp only [execute_of_commands s.gate s.send true w.docs hds, bulkPage]

/-- Where one message is enough, it stops at the first document that the server refuses. -/
theorem bulkPage_inOneMessage (gate : Gate δ String) (stop : Bool) (ds : List δ) (w : World δ) :
    bulkPage gate.inOneMessage stop ds w = orderedPage gate stop ds w := by
  simp only [bulkPage, finishPage, executeInserts, Gate.inOneMessage, answerMessages,
    answerMessage, if_true, writeErrorsOf_ordered, orderedPage]
  cases gate.refusal w.docs ds <;> simp [failureOf, setErrorFromResponse, WriteError.shift]

theorem bulkPage_of_takes {ds : List δ} (h : s.Takes w.docs ds) :
    ∃ r, bulkPage s stop ds w = (.ok (some r), { w with docs := w.docs ++ ds }) := by
  rw [bulkPage, finishPage, (executeInserts_failure_eq_none_iff s ds w.docs).mpr h,
    executeInserts_docs_of_takes h]
  exact ⟨_, rfl⟩

theorem bulkPage_of_not_takes {ds : List δ} (h : ¬ s.Takes w.docs ds) :
    ∃ e, bulkPage s true ds w =
        (.error e, { w with docs := s.gate.offerBatches (s.send ds).batches w.docs }) ∧
      (e = .unending ↔ (s.send ds).failure = some .unending) := by
  have hdocs := (answerMessages_ordered s.gate 0 (s.send ds).batches w.docs).1
  have hunending : (executeInserts s.gate true (s.send ds) w.docs).failure = some .unending ↔
      (s.send ds).failure = some .unending := failureOf_eq_unending_iff
  rw [← executeInserts_failure_eq_none_iff, ← ne_eq, Option.ne_none_iff_exists'] at h
  rw [bulkPage, finishPage, ← hdocs, ← hunending]
  obtain ⟨e | _, he⟩ := h <;> rw [he]
  · exact ⟨.raised e, rfl, by simp⟩
  · exact ⟨.unending, rfl, by simp⟩

theorem insertPage_of_not_encodable (h : ¬ c.EncodableJson json) :
    ∃ out w', rMongoCollectionInsertPage c s json stop w = (out, w') ∧ w'.docs = w.docs ∧
      (stop = true → ∃ e, out = .error (.raised e)) ∧ ∀ r, out = .ok r → r = none := by
  have hne : json.isEmpty = false := by
    cases json with
    | nil => exact absurd (fun s hs => by simp at hs) h
    | cons s ss => rfl
  rw [rMongoCollectionInsertPage, hne]
  cases hb : fillBulk c (mongocCollectionCreateBulkOperationWithOpts none) json with
  | error e => exact ⟨.error (.raised e), w, by simp, rfl, fun _ => ⟨e, rfl⟩, by simp⟩
  | ok bulk =>
    obtain ⟨ds, hds, rfl⟩ := fillBulk_ok hb
    have hv : ¬ AllValid c.validate ds := by
      intro hv
      refine h fun s hs => ?_
      have hm : c.bsonNewFromJson s ∈ ds.map .ok := hds ▸ List.mem_map_of_mem hs
      obtain ⟨d, hd, he⟩ := List.mem_map.mp hm
      exact Option.isSome_iff_exists.mpr ⟨d, encodeJson_eq_some.mpr ⟨he.symm, hv d hd⟩⟩
    obtain ⟨e, he⟩ := insertAll_of_invalid c.validate
      (mongocCollectionCreateBulkOperationWithOpts none) (ds.map fun d => (d, d))
      (by simpa [Function.comp_def] using hv)
    simp only [Bool.false_eq_true, if_false, execute_of_error s.gate s.send w.docs he, finishPage]
    cases stop with
    | true => exact ⟨_, _, rfl, rfl, fun _ => ⟨e, rfl⟩, by simp⟩
    | false => exact ⟨_, _, rfl, rfl, by simp, fun r hr => by simpa using hr.symm⟩

theorem mongoToJsonPage_ok {ss : List String} (h : mongoToJsonPage c rows = .ok ss) :
    rows.map c.encode = ss.map c.encodeJson := by
  induction rows generalizing ss with
  | nil =>
    simp only [mongoToJsonPage, Except.ok.injEq] at h
    simp [← h]
  | cons r rs ih =>
    cases hr : c.mongoToJson r with
    | error e => simp [mongoToJsonPage, hr] at h
    | ok s =>
      cases hrs : mongoToJsonPage c rs with
      | error e => simp [mongoToJsonPage, hr, hrs] at h
      | ok ss' =>
        simp only [mongoToJsonPage, hr, hrs, Except.ok.injEq] at h
        subst h
        simp [Codec.encode, hr, ih hrs]

theorem mongoToJsonPage_error {e : String} (h : mongoToJsonPage c rows = .error e) :
    ¬ c.Encodable rows := by
  induction rows with
  | nil => simp [mongoToJsonPage] at h
  | cons r rs ih =>
    intro he
    cases hr : c.mongoToJson r with
    | error e' => simpa [Codec.encode, hr] using he r List.mem_cons_self
    | ok s =>
      cases hrs : mongoToJsonPage c rs with
      | error e' =>
        simp only [mongoToJsonPage, hr, hrs, Except.error.injEq] at h
        exact ih (h ▸ hrs) fun x hx => he x (List.mem_cons_of_mem _ hx)
      | ok ss => simp [mongoToJsonPage, hr, hrs] at h

theorem mongoToJsonPage_of_encodable (h : c.Encodable rows) :
    ∃ ss, mongoToJsonPage c rows = .ok ss ∧ c.EncodableJson ss ∧ ss.length = rows.length ∧
      c.docsOfJson ss = c.docsOf rows := by
  cases hj : mongoToJsonPage c rows with
  | error e => exact absurd h (mongoToJsonPage_error hj)
  | ok ss =>
    have hm := mongoToJsonPage_ok hj
    refine ⟨ss, rfl, fun s hs => ?_, by simpa using (congrArg List.length hm).symm, ?_⟩
    · have hs' : c.encodeJson s ∈ rows.map c.encode := hm ▸ List.mem_map_of_mem hs
      obtain ⟨r, hr, he⟩ := List.mem_map.mp hs'
      exact he ▸ h r hr
    · have := congrArg (List.filterMap id) hm
      simpa [List.filterMap_map, Codec.docsOfJson, Codec.docsOf] using this.symm

end Mongolite
