import Mongolite.Library.Runs
import Mathlib.Data.Int.Notation
import Mathlib.Data.List.Basic

/-! # Methods of mongo and gridfs objects

An object holds a pointer, which `disconnect()` and saving leave null, and the
record it reconnects with. A method restores the pointer and then sends its
requests to the collection (or the file system) the pointer stands for.
-/

namespace Mongolite.Object

variable {O κ ν : Type}

/-- Where requests go; `name` is the collection or the prefix of the file system. -/
structure Target where
  url : String
  db : String
  name : String
  deriving DecidableEq, Repr

/-- A live pointer: what it stands for, and the connection options of its client. -/
structure Pointer (O : Type) where
  target : Target
  options : Option O
  deriving DecidableEq, Repr

/-- The record `orig` that an object reconnects with. -/
structure Orig (O : Type) where
  name : String
  db : String
  url : String
  options : Option O
  deriving DecidableEq, Repr

/-- A mongo or gridfs object; the pointer is `none` when it is null. -/
structure RObject (O : Type) where
  ptr : Option (Pointer O)
  orig : Orig O
  deriving DecidableEq, Repr

/-- What an object has done so far: its requests, the outcome of each method call with the answers
it got, and the reconnections. -/
structure Trace (κ ν : Type) where
  requests : List (Target × κ)
  outcomes : List (Except String (List (Except String ν)))
  reconnects : List Target

/-- The requests of a method: each may depend on the answers before it. -/
inductive Script (κ ν : Type) where
  | done
  | fail (e : String)
  | ask (command : κ) (answer : Except String ν → Script κ ν)

namespace Script

/-- Send the command and raise its error. -/
def askThen (command : κ) (next : Script κ ν) : Script κ ν :=
  .ask command fun
    | .error e => .fail e
    | .ok _ => next

def askAll (commands : List κ) : Script κ ν := commands.foldr askThen .done

end Script

/-- A server answers a request in the light of all requests before it. -/
abbrev Server (κ ν : Type) := List (Target × κ) → Target × κ → Except String ν

/-- Carry out a script: the answers or the error, and the requests so far. -/
def runScript (server : Server κ ν) (target : Target) :
    Script κ ν → List (Target × κ) → Except String (List (Except String ν)) × List (Target × κ)
  | .done, reqs => (.ok [], reqs)
  | .fail e, reqs => (.error e, reqs)
  | .ask command answer, reqs =>
    let reply := server reqs (target, command)
    let (out, reqs') := runScript server target (answer reply) (reqs ++ [(target, command)])
    (out.map (reply :: ·), reqs')

/-- `collection_reset` and `gridfs_reset`. -/
def reset (orig : Orig O) : Pointer O := ⟨⟨orig.url, orig.db, orig.name⟩, orig.options⟩

def check (s : RObject O × Trace κ ν) : RObject O × Trace κ ν :=
  match s.1.ptr with
  | some _ => s
  | none => ({ s.1 with ptr := some (reset s.1.orig) },
      { s.2 with reconnects := s.2.reconnects ++ [(reset s.1.orig).target] })

/-- Carry out a script on the pointer, which must not be null; `finish` updates the object where
nothing was raised. -/
def withPtr (destroyed : String) (server : Server κ ν) (body : Target → Script κ ν)
    (finish : RObject O → RObject O) (s : RObject O × Trace κ ν) : RObject O × Trace κ ν :=
  match s.1.ptr with
  | none => (s.1, { s.2 with outcomes := s.2.outcomes ++ [.error destroyed] })
  | some p =>
    let (out, reqs) := runScript server p.target (body p.target) s.2.requests
    (if out.toBool then finish s.1 else s.1,
      { s.2 with requests := reqs, outcomes := s.2.outcomes ++ [out] })

/-! ## Mongo objects -/

inductive CollectionCommand where
  | insertPage (json : List String) (stopOnError : Bool)
  | insertBson (doc : String) (stopOnError : Bool)
  | find (query fields sort : String) (skip limit : ℤ)
  | aggregate (pipeline options : String)
  | count (query : String)
  | remove (query : String) (justOne : Bool)
  | drop
  | update (query update : String) (filters : Option String) (upsert multiple replace : Bool)
  | mapreduce (name map reduce query sort : String) (limit : ℤ) (out scope : Option String)
  | distinct (name key query : String)
  | collStats (name : String)
  | serverStatus
  | renameCollection (source target : String × String)
  | command (command : String)
  | createIndex (field : String)
  | dropIndex (name : String)
  | listIndexes
  deriving DecidableEq, Repr

/-- The data of an insert: pages of JSON, each perhaps not encodable, or one BSON document. -/
inductive InsertArg where
  | pages (pages : List (Except String (List String)))
  | bson (doc : String)

inductive MongoMethod where
  | insert (data : InsertArg) (stopOnError : Bool)
  | find (query fields sort : String) (skip limit : ℤ)
  | iterate (query fields sort : String) (skip limit : ℤ)
  | export (query fields sort : String)
  | import (batches : List (Except String (List String)))
  | aggregate (pipeline options : String)
  | count (query : String)
  | remove (query : String) (justOne : Bool)
  | drop
  | update (query update : String) (filters : Option String) (upsert multiple : Bool)
  | replace (query update : String) (upsert : Bool)
  | mapreduce (map reduce query sort : String) (limit : ℤ) (out scope : Option String)
  | distinct (key query : String)
  | info
  | rename (name : String) (db : Option String)
  | run (command : String)
  | index (add remove : Option String)

/-- Insert page after page; a page that fails raises only with `stop_on_error`. -/
def insertPages (stopOnError : Bool) :
    List (Except String (List String)) → Script CollectionCommand ν
  | [] => .done
  | .error e :: _ => .fail e
  | .ok json :: pages =>
    .ask (.insertPage json stopOnError) fun
      | .ok _ => insertPages stopOnError pages
      | .error e => if stopOnError then .fail e else insertPages stopOnError pages

abbrev checkCol (s : RObject O × Trace CollectionCommand ν) :
    RObject O × Trace CollectionCommand ν := check s

abbrev withCol (server : Server CollectionCommand ν)
    (body : Target → Script CollectionCommand ν) (s : RObject O × Trace CollectionCommand ν) :
    RObject O × Trace CollectionCommand ν :=
  withPtr "Collection has been destroyed." server body id s

/-- After a successful rename the pointer and the record both have the new name; the record loses
its connection options. -/
def renamed (name : String) (db : Option String) (o : RObject O) : RObject O where
  ptr := o.ptr.map fun p =>
    { p with target := { p.target with name := name, db := db.getD p.target.db } }
  orig := ⟨name, db.getD o.orig.db, o.orig.url, none⟩

def rename (server : Server CollectionCommand ν) (name : String) (db : Option String)
    (s : RObject O × Trace CollectionCommand ν) : RObject O × Trace CollectionCommand ν :=
  withPtr "Collection has been destroyed." server
    (fun t => .askThen (.renameCollection (t.db, t.name) (db.getD t.db, name)) .done)
    (renamed name db) (checkCol s)

def call (server : Server CollectionCommand ν) (m : MongoMethod)
    (s : RObject O × Trace CollectionCommand ν) : RObject O × Trace CollectionCommand ν :=
  match m with
  | .insert (.pages pages) stop => withCol server (fun _ => insertPages stop pages) (checkCol s)
  | .insert (.bson doc) stop =>
    withCol server (fun _ => .askThen (.insertBson doc stop) .done) (checkCol s)
  | .find query fields sort skip limit =>
    withCol server (fun _ => .askThen (.find query fields sort skip limit) .done) (checkCol s)
  | .iterate query fields sort skip limit =>
    withCol server (fun _ => .askThen (.find query fields sort skip limit) .done) (checkCol s)
  | .export query fields sort =>
    withCol server (fun _ => .askThen (.find query fields sort 0 0) .done) (checkCol s)
  | .import batches => withCol server (fun _ => insertPages true batches) (checkCol s)
  | .aggregate pipeline options =>
    withCol server (fun _ => .askThen (.aggregate pipeline options) .done) (checkCol s)
  | .count query => withCol server (fun _ => .askThen (.count query) .done) (checkCol s)
  | .remove query justOne =>
    withCol server (fun _ => .askThen (.remove query justOne) .done) (checkCol s)
  -- "ns not found" counts as an answer here, not as an error
  | .drop => withCol server (fun _ => .askThen .drop .done) (checkCol s)
  | .update query update filters upsert multiple =>
    withCol server (fun _ =>
      .askThen (.update query update filters upsert multiple false) .done) (checkCol s)
  | .replace query update upsert =>
    withCol server (fun _ =>
      .askThen (.update query update none upsert false true) .done) (checkCol s)
  | .mapreduce map reduce query sort limit out scope =>
    withCol server (fun t =>
      .askThen (.mapreduce t.name map reduce query sort limit out scope) .done) (checkCol s)
  | .distinct key query =>
    withCol server (fun t => .askThen (.distinct t.name key query) .done) (checkCol s)
  | .info =>
    withCol server (fun t =>
      -- the statistics are wrapped in `tryCatch`
      .ask (.collStats t.name) fun _ => .askThen .serverStatus .done) (checkCol s)
  | .rename name db => rename server name db s
  | .run command => withCol server (fun _ => .askThen (.command command) .done) s
  | .index add remove =>
    withCol server (fun _ => .askAll (add.toList.map .createIndex ++
      remove.toList.map .dropIndex ++ [.listIndexes])) (checkCol s)

/-! ## Gridfs objects -/

inductive GridfsCommand where
  | drop
  | find (filter options : String)
  | upload (name path : String) (contentType metadata : Option String)
  | download (query path : String)
  | read (query : String)
  | write (name : String) (contentType metadata : Option String)
  | remove (query : String)
  deriving DecidableEq, Repr

inductive GridfsMethod where
  | drop
  | find (filter options : String)
  | upload (files : List (String × String)) (contentType metadata : Option String)
  | download (files : List (String × String))
  | read (query : String)
  | write (name : String) (contentType metadata : Option String)
  | remove (queries : List String)

abbrev checkFs (s : RObject O × Trace GridfsCommand ν) : RObject O × Trace GridfsCommand ν :=
  check s

abbrev withFs (server : Server GridfsCommand ν) (body : Target → Script GridfsCommand ν)
    (s : RObject O × Trace GridfsCommand ν) : RObject O × Trace GridfsCommand ν :=
  withPtr "This grid has been destroyed." server body id s

def callFs (server : Server GridfsCommand ν) (m : GridfsMethod)
    (s : RObject O × Trace GridfsCommand ν) : RObject O × Trace GridfsCommand ν :=
  match m with
  | .drop => withFs server (fun _ => .askThen .drop .done) (checkFs s)
  | .find filter options =>
    withFs server (fun _ => .askThen (.find filter options) .done) (checkFs s)
  | .upload files contentType metadata =>
    withFs server (fun _ =>
      .askAll (files.map fun f => .upload f.1 f.2 contentType metadata)) (checkFs s)
  | .download files =>
    withFs server (fun _ => .askAll (files.map fun f => .download f.1 f.2)) (checkFs s)
  | .read query => withFs server (fun _ => .askThen (.read query) .done) (checkFs s)
  | .write name contentType metadata =>
    withFs server (fun _ => .askThen (.write name contentType metadata) .done) (checkFs s)
  | .remove queries => withFs server (fun _ => .askAll (queries.map .remove)) (checkFs s)

/-! ## Histories -/

/-- A method call, or one of the two ways to lose the pointer. -/
inductive Event (μ : Type) where
  | call (m : μ)
  | disconnect
  | saveLoad

/-- Both an explicit disconnection and saving and loading the object leave a null pointer. -/
def step {μ : Type} (callMethod : μ → RObject O × Trace κ ν → RObject O × Trace κ ν)
    (s : RObject O × Trace κ ν) : Event μ → RObject O × Trace κ ν
  | .call m => callMethod m s
  | .disconnect | .saveLoad => ({ s.1 with ptr := none }, s.2)

def Event.method? {μ : Type} : Event μ → Option μ
  | .call m => some m
  | .disconnect | .saveLoad => none

/-- An object just connected: `mongo()` and `gridfs()`. -/
def connected (orig : Orig O) : RObject O × Trace κ ν := (⟨some (reset orig), orig⟩, ⟨[], [], []⟩)

end Mongolite.Object
