import Mongolite.Library.Collector
import Mongolite.Library.Runs

/-! # The connection pool

`new_client` keeps a weak reference to the client of each parameter list and
hands the client out again while it can. Between any two of its steps the
collector may mark clients that nothing refers to, and run their finalizers.
-/

namespace Mongolite

/-- Where a call of `new_client` is: not called, called, with the client that `get_weakref` gave, or
with a client just created. -/
inductive Frame (P : Type) where
  | idle
  | called (params : P)
  | looked (params : P) (client : Option ℕ)
  | created (params : P) (client : ℕ)
  deriving DecidableEq, Repr

/-- Clients are numbered; `params` is what a client was created for, and `pool` the key of the weak
reference under the hash of a parameter list, if there is one, `some none` when it is cleared.
`returns` lists what the calls so far have returned. -/
structure PoolState (P : Type) where
  heap : Collector
  params : ℕ → Option P
  pool : P → Option (Option ℕ)
  frame : Frame P
  returns : List (P × ℕ)

def emptyPool {P : Type} : PoolState P := ⟨.empty, fun _ => none, fun _ => none, .idle, []⟩

variable {P : Type}

/-- `R_RunPendingFinalizers`: `fin_client` destroys the client, and weak references to it are
cleared. -/
def runPendingFinalizers (s : PoolState P) : PoolState P :=
  { s with heap := s.heap.finalize, pool := fun p => (s.pool p).map s.heap.clearKey }

/-- `get_weakref(pool[[hash]])` -/
def getWeakref (p : P) (s : PoolState P) : Option ℕ × PoolState P :=
  match s.pool p with
  | none => (none, s)
  | some _ =>
    -- prevent R from giving us a value that is already scheduled for removal
    let s' := runPendingFinalizers s
    ((s'.pool p).join, s')

def nullPtr (s : PoolState P) (client : ℕ) : Bool := s.heap.finalized client

variable [DecidableEq P]

/-- `do.call(mongo_client_new, params)`, which raises unless `valid`. -/
def mongoClientNew (valid : Bool) (p : P) (s : PoolState P) : PoolState P :=
  if valid then
    { s with
      heap := s.heap.make
      params := Function.update s.params s.heap.made (some p)
      frame := .created p s.heap.made }
  else { s with frame := .idle }

/-- Return from `new_client`; the caller gets the reference to the client. -/
def returnClient (p : P) (client : ℕ) (s : PoolState P) : PoolState P :=
  { s with frame := .idle, returns := s.returns ++ [(p, client)] }

/-- The next step of the call; `valid` says whether a client can be created. -/
def advanceCall (valid : Bool) (s : PoolState P) : PoolState P :=
  match s.frame with
  | .idle => s
  | .called p =>
    match getWeakref p s with
    | (none, s') => { s' with frame := .looked p none }
    | (some c, s') => { s' with frame := .looked p (some c), heap := s'.heap.hold c }
  | .looked p none => mongoClientNew valid p s
  | .looked p (some c) =>
    if nullPtr s c then mongoClientNew valid p { s with heap := s.heap.drop c }
    else returnClient p c s
  | .created p c =>
    returnClient p c { s with pool := Function.update s.pool p (some (some c)) }

def Frame.client : Frame P → Option ℕ
  | .looked _ client => client
  | .created _ client => some client
  | .idle | .called _ => none

def PoolState.heldOutside (s : PoolState P) (c : ℕ) : ℕ :=
  s.heap.refs c - if s.frame.client = some c then 1 else 0

inductive PoolEvent (P : Type) where
  | newClient (params : P)
  | advance (valid : Bool)
  | interrupt
  | copy (client : ℕ)
  | release (client : ℕ)
  | gc (found : List ℕ)
  | runFinalizers

/-- What can happen between two steps of a call: references come and go, and the collector works. -/
def PoolEvent.isQuiet : PoolEvent P → Bool
  | .copy _ | .release _ | .gc _ | .runFinalizers => true
  | .newClient _ | .advance _ | .interrupt => false

/-- One step of the program or of the collector; what cannot happen in a state changes nothing. A
disconnected collection and a dropped variable both release a client. Calls do not nest. -/
def poolStep (s : PoolState P) : PoolEvent P → PoolState P
  | .newClient p => if s.frame = .idle then { s with frame := .called p } else s
  | .advance valid => advanceCall valid s
  | .interrupt =>
    match s.frame.client with
    | none => { s with frame := .idle }
    | some c => { s with frame := .idle, heap := s.heap.drop c }
  | .copy c => if 0 < s.heldOutside c then { s with heap := s.heap.hold c } else s
  | .release c => if 0 < s.heldOutside c then { s with heap := s.heap.drop c } else s
  | .gc found => { s with heap := s.heap.collect found }
  | .runFinalizers => runPendingFinalizers s

end Mongolite
