import Mongolite.Object.Methods

/-! # The record of a mongo object

`collection_reset` connects anew with what `mongo()` has saved: the url, the
connection options with the contents of the certificate file, and the name of
the collection. `rename` saves a new record, with the new name but without the
options.
-/

namespace Mongolite.Object

variable {ν : Type}

structure SslOptions where
  pemFile : Option String
  pemPwd : Option String
  caFile : Option String
  caDir : Option String
  crlFile : Option String
  allowInvalidHostname : Option Bool
  weakCertValidation : Option Bool
  deriving DecidableEq, Repr

/-- The options in a record, with the lines of the certificate file, which are a hidden attribute of
the record and are saved only where there are options. -/
structure SavedOptions where
  options : SslOptions
  pemdata : Option (List String)
  deriving DecidableEq, Repr

abbrev MongoState (ν : Type) := RObject SavedOptions × Trace CollectionCommand ν

def Orig.sslOptions (orig : Orig SavedOptions) : Option SslOptions :=
  orig.options.map SavedOptions.options

def Orig.pemdata (orig : Orig SavedOptions) : Option (List String) :=
  orig.options.bind SavedOptions.pemdata

/-- The record that `mongo()` saves; `readLines` is `none` for a file that does not exist. -/
def mongoOrig (readLines : String → Option (List String)) (name db url : String)
    (options : Option SslOptions) : Orig SavedOptions :=
  ⟨name, db, url, options.map fun o => ⟨o, o.pemFile.bind readLines⟩⟩

/-- What happens to a mongo object; a call or a print that has to connect anew fails if that
fails. -/
inductive MongoEvent where
  | call (m : MongoMethod) (connect : Except String Unit)
  | print (connect : Except String Unit)
  | disconnect
  | saveLoad

/-- The methods that begin with `check_col()`. -/
def MongoMethod.checksCol : MongoMethod → Bool
  | .run _ => false
  | _ => true

def mongoStep (server : Server CollectionCommand ν) (s : MongoState ν) :
    MongoEvent → MongoState ν
  | .call m (.ok _) => call server m s
  | .call m (.error e) =>
    if s.1.ptr.isNone && m.checksCol then
      (s.1, { s.2 with outcomes := s.2.outcomes ++ [.error e] })
    else call server m s
  | .print (.ok _) => checkCol s
  | .print (.error _) => s
  | .disconnect | .saveLoad => ({ s.1 with ptr := none }, s.2)

/-! ## What the record describes -/

/-- Where the data of the object are after an event: a `rename` that returns moves them. -/
def dataAfter (server : Server CollectionCommand ν) (s : MongoState ν) (data : Target) :
    MongoEvent → Target
  | .call (.rename name db) connect =>
    let s' := mongoStep server s (.call (.rename name db) connect)
    if s'.2.outcomes.getLast?.any Except.toBool then
      { data with name := name, db := db.getD data.db }
    else data
  | _ => data

/-- A step of an object together with the place of its data. -/
def trackedStep (server : Server CollectionCommand ν) (s : MongoState ν × Target)
    (event : MongoEvent) : MongoState ν × Target :=
  (mongoStep server s.1 event, dataAfter server s.1 s.2 event)

/-- The record names what the object was created with and the collection its data are in. -/
structure Describes (created : Orig SavedOptions) (s : MongoState ν × Target) : Prop where
  url : s.1.1.orig.url = created.url
  options : s.1.1.orig.sslOptions = created.sslOptions
  pemdata : s.1.1.orig.pemdata = created.pemdata
  db : s.1.1.orig.db = s.2.db
  name : s.1.1.orig.name = s.2.name

def renameReply (server : Server CollectionCommand ν) (name : String) (db : Option String)
    (s : MongoState ν) : Except String ν :=
  let t := (s.1.ptr.getD (reset s.1.orig)).target
  server s.2.requests (t, .renameCollection (t.db, t.name) (db.getD t.db, name))

/-- The server is reached and agrees to the new name. -/
def RenameAccepted (server : Server CollectionCommand ν) (name : String) (db : Option String)
    (connect : Except String Unit) (s : MongoState ν) : Prop :=
  (s.1.ptr.isSome ∨ connect.toBool) ∧ (renameReply server name db s).toBool

/-- The event is not a successful `rename` of an object that has saved options. -/
def KeepsRecord (server : Server CollectionCommand ν) (s : MongoState ν × Target)
    (event : MongoEvent) : Prop :=
  ∀ name db connect, event = .call (.rename name db) connect →
    RenameAccepted server name db connect s.1 → s.1.1.orig.options = none

/-! ## Steps -/

theorem check_eq {O κ : Type} (s : RObject O × Trace κ ν) :
    (check s).1.orig = s.1.orig ∧ (check s).2.requests = s.2.requests ∧
      (check s).1.ptr = some (s.1.ptr.getD (reset s.1.orig)) := by
  unfold check
  cases hp : s.1.ptr with
  | none => exact ⟨rfl, rfl, rfl⟩
  | some p => exact ⟨rfl, rfl, hp⟩

theorem withCol_orig (server : Server CollectionCommand ν)
    (body : Target → Script CollectionCommand ν) (s : MongoState ν) :
    (withCol server body s).1.orig = s.1.orig := by
  unfold withCol withPtr
  cases s.1.ptr with
  | none => rfl
  | some p => simp

theorem call_orig (server : Server CollectionCommand ν) {m : MongoMethod} (s : MongoState ν)
    (hm : ∀ name db, m ≠ .rename name db) : (call server m s).1.orig = s.1.orig := by
  have hcheck := (check_eq s).1
  unfold call
  cases m with
  | rename name db => exact absurd rfl (hm name db)
  | run command => exact withCol_orig server _ s
  | insert data stop => cases data <;> exact (withCol_orig server _ _).trans hcheck
  | find | iterate | «export» | «import» | aggregate | count | remove | drop | update | replace
  | mapreduce | distinct | info | index => exact (withCol_orig server _ _).trans hcheck

theorem withPtr_of_some {O κ : Type} {s : RObject O × Trace κ ν} {p : Pointer O}
    (hp : s.1.ptr = some p) (destroyed : String) (server : Server κ ν)
    (body : Target → Script κ ν) (finish : RObject O → RObject O) :
    let out := (runScript server p.target (body p.target) s.2.requests).1
    (withPtr destroyed server body finish s).1 = (if out.toBool then finish s.1 else s.1) ∧
      (withPtr destroyed server body finish s).2.outcomes = s.2.outcomes ++ [out] := by
  intro out
  unfold withPtr
  simp only [hp]
  exact ⟨rfl, rfl⟩

theorem toBool_runScript_askThen {κ : Type} (server : Server κ ν) (t : Target) (c : κ)
    (reqs : List (Target × κ)) :
    (runScript server t (.askThen c .done) reqs).1.toBool = (server reqs (t, c)).toBool := by
  rw [Script.askThen, runScript]
  cases server reqs (t, c) <;> rfl

/-- A `rename` on a connected object returns and saves a record if the server agrees. -/
theorem rename_spec (server : Server CollectionCommand ν) (name : String) (db : Option String)
    (s : MongoState ν) :
    (rename server name db s).1.orig =
        (if (renameReply server name db s).toBool then (renamed name db s.1).orig
          else s.1.orig) ∧
      (rename server name db s).2.outcomes.getLast?.any Except.toBool =
        (renameReply server name db s).toBool := by
  obtain ⟨horig, hreqs, hptr⟩ := check_eq s
  obtain ⟨hobj, hout⟩ := withPtr_of_some hptr "Collection has been destroyed." server
    (fun t => .askThen (.renameCollection (t.db, t.name) (db.getD t.db, name)) .done)
    (renamed name db)
  rw [toBool_runScript_askThen, hreqs] at hobj
  constructor
  · rw [rename, checkCol, hobj, renameReply]
    split_ifs <;> simp [renamed, horig]
  · rw [rename, checkCol, hout, List.getLast?_concat, Option.any_some, toBool_runScript_askThen,
      hreqs, renameReply]

theorem rename_reached (server : Server CollectionCommand ν) (name : String)
    (db : Option String) {connect : Except String Unit} {s : MongoState ν}
    (h : s.1.ptr.isSome ∨ connect.toBool) :
    mongoStep server s (.call (.rename name db) connect) = rename server name db s := by
  cases connect with
  | ok u => rfl
  | error e =>
    have hsome : s.1.ptr.isSome := h.resolve_right (by simp [Except.toBool])
    simp [mongoStep, Option.isNone_eq_false_iff.mpr hsome, call]

theorem rename_not_reached (server : Server CollectionCommand ν) (name : String)
    (db : Option String) {connect : Except String Unit} {s : MongoState ν}
    (h : ¬ (s.1.ptr.isSome ∨ connect.toBool)) :
    (mongoStep server s (.call (.rename name db) connect)).1.orig = s.1.orig ∧
      (mongoStep server s (.call (.rename name db) connect)).2.outcomes.getLast?.any
        Except.toBool = false := by
  rw [not_or] at h
  cases connect with
  | ok u => exact absurd rfl h.2
  | error e =>
    have hnone : s.1.ptr.isNone := by simpa using h.1
    simp [mongoStep, hnone, MongoMethod.checksCol, Except.toBool]

theorem tracked_rename (server : Server CollectionCommand ν) (name : String)
    (db : Option String) (connect : Except String Unit) (s : MongoState ν × Target) :
    let s' := trackedStep server s (.call (.rename name db) connect)
    (RenameAccepted server name db connect s.1 ∧ s'.1.1.orig = (renamed name db s.1.1).orig ∧
        s'.2 = { s.2 with name := name, db := db.getD s.2.db }) ∨
      (¬ RenameAccepted server name db connect s.1 ∧ s'.1.1.orig = s.1.1.orig ∧ s'.2 = s.2) := by
  intro s'
  by_cases hreach : s.1.1.ptr.isSome ∨ connect.toBool
  · obtain ⟨horig, hout⟩ := rename_spec server name db s.1
    rw [← rename_reached server name db hreach] at horig hout
    rw [RenameAccepted, and_iff_right hreach]
    by_cases hreply : (renameReply server name db s.1).toBool
    · refine .inl ⟨hreply, horig.trans (if_pos hreply), ?_⟩
      exact if_pos (hout.trans hreply)
    · refine .inr ⟨hreply, horig.trans (if_neg hreply), ?_⟩
      exact if_neg (hout ▸ hreply)
  · obtain ⟨horig, hout⟩ := rename_not_reached server name db hreach
    refine .inr ⟨fun h => hreach h.1, horig, ?_⟩
    exact if_neg (by simp [hout])

theorem tracked_of_ne (server : Server CollectionCommand ν) (s : MongoState ν × Target)
    {event : MongoEvent} (h : ∀ name db connect, event ≠ .call (.rename name db) connect) :
    (trackedStep server s event).1.1.orig = s.1.1.orig ∧
      (trackedStep server s event).2 = s.2 := by
  cases event with
  | call m connect =>
    have hm : ∀ name db, m ≠ .rename name db := fun name db hm => h name db connect (hm ▸ rfl)
    constructor
    · cases connect with
      | ok u => exact call_orig server s.1 hm
      | error e =>
        simp only [trackedStep, mongoStep]
        split_ifs
        · rfl
        · exact call_orig server s.1 hm
    · cases m with
      | rename name db => exact absurd rfl (hm name db)
      | _ => rfl
  | print connect =>
    cases connect with
    | ok u => exact ⟨(check_eq s.1).1, rfl⟩
    | error e => exact ⟨rfl, rfl⟩
  | disconnect | saveLoad => exact ⟨rfl, rfl⟩

theorem Describes.of_eq {created : Orig SavedOptions} {s s' : MongoState ν × Target}
    (h : Describes created s) (horig : s'.1.1.orig = s.1.1.orig) (hdata : s'.2 = s.2) :
    Describes created s' := by
  constructor
  · exact horig ▸ h.url
  · exact horig ▸ h.options
  · exact horig ▸ h.pemdata
  · rw [horig, hdata, h.db]
  · rw [horig, hdata, h.name]

/-- After an event the record describes the object still, if and only if no options were lost. -/
theorem describes_step_iff (server : Server CollectionCommand ν) {created : Orig SavedOptions}
    {s : MongoState ν × Target} (event : MongoEvent) (h : Describes created s) :
    Describes created (trackedStep server s event) ↔ KeepsRecord server s event := by
  by_cases hrename : ∃ name db connect, event = .call (.rename name db) connect
  · obtain ⟨name, db, connect, rfl⟩ := hrename
    obtain ⟨haccepted, horig, hdata⟩ | ⟨hrefused, horig, hdata⟩ :=
      tracked_rename server name db connect s
    · constructor
      · rintro h' name' db' connect' ⟨⟩ -
        have hoptions := h'.options
        rw [horig, ← h.options] at hoptions
        exact Option.map_eq_none_iff.mp hoptions.symm
      · intro hkeeps
        have hnone := hkeeps name db connect rfl haccepted
        constructor
        · rw [horig]
          exact h.url
        · rw [horig, ← h.options]
          simp [Orig.sslOptions, renamed, hnone]
        · rw [horig, ← h.pemdata]
          simp [Orig.pemdata, renamed, hnone]
        · rw [horig, hdata]
          simp only [renamed, h.db]
        · rw [horig, hdata]
          rfl
    · refine iff_of_true (h.of_eq horig hdata) ?_
      rintro name' db' connect' ⟨⟩ haccepted
      exact absurd haccepted hrefused
  · have hne : ∀ name db connect, event ≠ .call (.rename name db) connect :=
      fun name db connect he => hrename ⟨name, db, connect, he⟩
    obtain ⟨horig, hdata⟩ := tracked_of_ne server s hne
    exact iff_of_true (h.of_eq horig hdata)
      fun name db connect he => absurd he (hne name db connect)

/-- The record describes the object after every event of a history, if and only if no `rename`
succeeds while the record holds options. -/
theorem describes_throughout_iff (server : Server CollectionCommand ν)
    (readLines : String → Option (List String)) (name db url : String)
    (options : Option SslOptions) (events : List MongoEvent) :
    let created := mongoOrig readLines name db url options
    (∀ before, before <+: events →
        Describes created (run (trackedStep server) (connected created, ⟨url, db, name⟩) before)) ↔
      Meets (trackedStep server) (KeepsRecord server) (connected created, ⟨url, db, name⟩)
        events :=
  throughout_iff_meets ⟨rfl, rfl, rfl, rfl, rfl⟩
    fun _ event h => describes_step_iff server event h

/-- One `rename` loses the client certificate and the other options. -/
theorem rename_loses_options :
    ¬ Describes
      (mongoOrig (fun _ => some ["-----BEGIN CERTIFICATE-----"]) "flights" "test"
        "mongodb://localhost/?ssl=true"
        (some ⟨some "client.pem", none, some "ca.pem", none, none, none, none⟩))
      (run (trackedStep fun _ _ => .ok ())
        (connected (mongoOrig (fun _ => some ["-----BEGIN CERTIFICATE-----"]) "flights" "test"
          "mongodb://localhost/?ssl=true"
          (some ⟨some "client.pem", none, some "ca.pem", none, none, none, none⟩)),
          ⟨"mongodb://localhost/?ssl=true", "test", "flights"⟩)
        [.call (.rename "arrivals" none) (.ok ())]) := by
  intro h
  exact absurd h.options (by decide)

end Mongolite.Object
