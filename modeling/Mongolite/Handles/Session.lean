import Mongolite.Library.Ownership
import Mongolite.Library.Runs

/-! # R handles of driver objects

Clients, collections, gridfs objects and cursors sit behind R external pointers
that protect the pointer they were made from. The pool remembers clients by weak
references. Collection marks what no R variable reaches, and the pending
finalizers then run, most recently registered first.
-/

namespace Mongolite.Handles

inductive Kind where
  | client
  | collection
  | gridfs
  | cursor
  deriving DecidableEq, Repr

inductive Finalizer where
  | registered
  | ready
  | done
  deriving DecidableEq, Repr

/-- An external pointer: what it stands for, the client the driver's object belongs to, whether
its address is non-null, and its protected slot. -/
structure ExternalPtr where
  kind : Kind
  client : ℕ
  addr : Bool
  prot : Option ℕ
  finalizer : Finalizer
  deriving DecidableEq, Repr

/-- An R object that holds a pointer, with the parameters it reconnects with. -/
inductive Ref (P : Type) where
  | mongo (params : P) (col : ℕ)
  | gridfs (params : P) (fs : ℕ)
  | iterator (cur : ℕ)
  deriving DecidableEq, Repr

def Ref.ptr {P : Type} : Ref P → ℕ
  | mongo _ col => col
  | gridfs _ fs => fs
  | iterator cur => cur

def Ref.kind {P : Type} : Ref P → Kind
  | mongo .. => .collection
  | gridfs .. => .gridfs
  | iterator .. => .cursor

/-- An R session: pointers in the order they were registered, the pool's weak references (an
inner `none` is a cleared one), the R variables, and the clients destroyed and used afterwards. -/
structure Session (P : Type) where
  heap : List ExternalPtr
  pool : P → Option (Option ℕ)
  refs : List (Option (Ref P))
  destroyed : List ℕ
  faults : List ℕ

variable {P : Type}

def Session.start : Session P := ⟨[], fun _ => none, [], [], []⟩

def roots (s : Session P) : List ℕ := s.refs.filterMap fun r => r.map Ref.ptr

def protOf (s : Session P) (i : ℕ) : Option ℕ := s.heap[i]?.bind ExternalPtr.prot

def nullPtr (s : Session P) (i : ℕ) : Bool :=
  match s.heap[i]? with
  | none => true
  | some p => !p.addr

/-- The driver follows its bare pointer to a client. -/
def touchClient (c : ℕ) (s : Session P) : Session P :=
  if c ∈ s.destroyed then { s with faults := c :: s.faults } else s

def mongocClientDestroy (c : ℕ) (s : Session P) : Session P :=
  { s with destroyed := c :: s.destroyed }

/-- What the finalizers share: destroy the object, unprotect its parent, clear the address. -/
def finalize (destroy : ℕ → Session P → Session P) (i : ℕ) (s : Session P) : Session P :=
  match s.heap[i]? with
  | none => s
  | some p =>
    if p.addr then
      { destroy p.client s with
        heap := s.heap.modify i fun p => { p with addr := false, prot := none } }
    else s

def finCollection : ℕ → Session P → Session P := finalize fun _ s => s
def finCursor : ℕ → Session P → Session P := finalize touchClient
def finClient : ℕ → Session P → Session P := finalize mongocClientDestroy
def finGridfs : ℕ → Session P → Session P := finalize fun _ s => s

/-- The pool after its weak references to a pointer were cleared. -/
def clearWeakrefs (i : ℕ) (pool : P → Option (Option ℕ)) : P → Option (Option ℕ) :=
  fun params => if pool params = some (some i) then some none else pool params

/-- Run the finalizer of a pointer, whose weak references are cleared with it. -/
def runFinalizer (i : ℕ) (s : Session P) : Session P :=
  match s.heap[i]? with
  | none => s
  | some p =>
    let s' := { s with
      heap := s.heap.modify i fun p => { p with finalizer := .done }
      pool := clearWeakrefs i s.pool }
    match p.kind with
    | .client => finClient i s'
    | .collection => finCollection i s'
    | .gridfs => finGridfs i s'
    | .cursor => finCursor i s'

def isReady (s : Session P) (i : ℕ) : Bool := s.heap[i]?.any (·.finalizer == .ready)

/-- Run the ready finalizers among the first `n` pointers, the most recent first. -/
def runReady : ℕ → Session P → Session P
  | 0, s => s
  | n + 1, s => runReady n (if isReady s n then runFinalizer n s else s)

def runPendingFinalizers (s : Session P) : Session P := runReady s.heap.length s

/-- Make the finalizer of every pointer that no R variable reaches ready to run. -/
def collect (s : Session P) : Session P :=
  { s with heap := s.heap.mapIdx fun i p =>
      if p.finalizer = .registered ∧ marked (protOf s) (roots s) i = false then
        { p with finalizer := .ready }
      else p }

def makeExternalPtr (kind : Kind) (client : ℕ) (prot : Option ℕ) (s : Session P) : Session P :=
  { s with heap := s.heap ++ [⟨kind, client, true, prot, .registered⟩] }

/-- A new object made from a live one, which its pointer protects. -/
def makeFrom (kind : Kind) (i : ℕ) (s : Session P) : Session P × Option ℕ :=
  match s.heap[i]? with
  | none => (s, none)
  | some p =>
    if p.addr then (makeExternalPtr kind p.client (some i) s, some s.heap.length) else (s, none)

def mongoCollectionNew : ℕ → Session P → Session P × Option ℕ := makeFrom .collection
def mongoGridfsNew : ℕ → Session P → Session P × Option ℕ := makeFrom .gridfs
def mongoCollectionFind : ℕ → Session P → Session P × Option ℕ := makeFrom .cursor

section Operations

variable [DecidableEq P]

/-- `mongo_client_new`, remembered in the pool. -/
def mongoClientNew (params : P) (s : Session P) : Session P × ℕ :=
  ({ makeExternalPtr .client s.heap.length none s with
      pool := Function.update s.pool params (some (some s.heap.length)) }, s.heap.length)

/-- `get_weakref(pool[[hash]])`. -/
def getWeakref (params : P) (s : Session P) : Session P × Option ℕ :=
  match s.pool params with
  | none => (s, none)
  | some _ =>
    let s' := runPendingFinalizers s
    (s', (s'.pool params).join)

def newClient (params : P) (s : Session P) : Session P × ℕ :=
  match getWeakref params s with
  | (s', none) => mongoClientNew params s'
  | (s', some c) => if nullPtr s' c then mongoClientNew params s' else (s', c)

def openHandle (new : ℕ → Session P → Session P × Option ℕ) (params : P) (s : Session P) :
    Session P × Option ℕ :=
  let (s', client) := newClient params s
  new client s'

def collectionReset : P → Session P → Session P × Option ℕ := openHandle mongoCollectionNew
def gridfsReset : P → Session P → Session P × Option ℕ := openHandle mongoGridfsNew

/-- Bind a new R variable to an object made by `out`, if it was made. -/
def bindNew (ref : ℕ → Ref P) (out : Session P × Option ℕ) : Session P :=
  match out with
  | (s, none) => s
  | (s, some i) => { s with refs := s.refs ++ [some (ref i)] }

def rebind (k : ℕ) (ref : ℕ → Ref P) (out : Session P × Option ℕ) : Session P :=
  match out with
  | (s, none) => s
  | (s, some i) => { s with refs := s.refs.set k (some (ref i)) }

def mongo (params : P) (s : Session P) : Session P :=
  bindNew (.mongo params) (openHandle mongoCollectionNew params s)

def gridfs (params : P) (s : Session P) : Session P :=
  bindNew (.gridfs params) (openHandle mongoGridfsNew params s)

/-- `check_col` and `check_fs`, which the methods call first. -/
def check (k : ℕ) (s : Session P) : Session P :=
  match s.refs[k]?.join with
  | some (.mongo params col) =>
    if nullPtr s col then rebind k (.mongo params) (collectionReset params s) else s
  | some (.gridfs params fs) =>
    if nullPtr s fs then rebind k (.gridfs params) (gridfsReset params s) else s
  | _ => s

def iterate (k : ℕ) (s : Session P) : Session P :=
  let s' := check k s
  match s'.refs[k]?.join with
  | some (.mongo _ col) => bindNew .iterator (mongoCollectionFind col s')
  | _ => s'

def mongoCursorNext (k : ℕ) (s : Session P) : Session P :=
  match s.refs[k]?.join with
  | some (.iterator cur) =>
    match s.heap[cur]? with
    | none => s
    | some p => if p.addr then touchClient p.client s else s
  | _ => s

def disconnect (k : ℕ) (s : Session P) : Session P :=
  match s.refs[k]?.join with
  | some (.mongo _ col) => finCollection col s
  | some (.gridfs _ fs) => finGridfs fs s
  | _ => s

def drop (k : ℕ) (s : Session P) : Session P := { s with refs := s.refs.set k none }

end Operations

/-- What can happen in a session; `call` is any other method of an object. -/
inductive Op (P : Type) where
  | mongo (params : P)
  | gridfs (params : P)
  | call (k : ℕ)
  | iterate (k : ℕ)
  | next (k : ℕ)
  | disconnect (k : ℕ)
  | drop (k : ℕ)
  | collect
  | runPendingFinalizers
  deriving DecidableEq, Repr

def step [DecidableEq P] (s : Session P) : Op P → Session P
  | .mongo params => Handles.mongo params s
  | .gridfs params => Handles.gridfs params s
  | .call k => check k s
  | .iterate k => Handles.iterate k s
  | .next k => mongoCursorNext k s
  | .disconnect k => Handles.disconnect k s
  | .drop k => Handles.drop k s
  | .collect => Handles.collect s
  | .runPendingFinalizers => Handles.runPendingFinalizers s

/-- No live collection, gridfs object or cursor outlives its client, and no destroyed client was
ever used. -/
structure Safe (s : Session P) : Prop where
  alive : ∀ (i : ℕ) (p : ExternalPtr), s.heap[i]? = some p → p.kind ≠ .client → p.addr = true →
    p.client ∉ s.destroyed
  faults : s.faults = []

end Mongolite.Handles
