import Mongolite.Object.Methods

/-! # Losing the connection pointer

A history with losses is compared with the history of its method calls alone.
The methods that check the pointer first send the same requests in both; `run`
does not check it and fails on a null pointer.
-/

namespace Mongolite.Object

variable {O κ ν : Type} {s t : RObject O × Trace κ ν}

/-- The same requests in the same order, and the same outcome of every method call. -/
structure SameTrace (s t : RObject O × Trace κ ν) : Prop where
  requests : s.2.requests = t.2.requests
  outcomes : s.2.outcomes = t.2.outcomes

/-- `s` may have lost its pointer where `t` has not; live pointers stand for what their record
says. -/
structure Follows (s t : RObject O × Trace κ ν) : Prop extends SameTrace s t where
  orig : s.1.orig = t.1.orig
  live : ∃ p, t.1.ptr = some p ∧ p.target = (reset t.1.orig).target
  target : ∀ p, s.1.ptr = some p → p.target = (reset s.1.orig).target

theorem Follows.connected (orig : Orig O) :
    Follows (connected orig : RObject O × Trace κ ν) (connected orig) where
  requests := rfl
  outcomes := rfl
  orig := rfl
  live := ⟨_, rfl, rfl⟩
  target := by
    rintro p ⟨⟩
    rfl

theorem Follows.lose (h : Follows s t) : Follows ({ s.1 with ptr := none }, s.2) t where
  requests := h.requests
  outcomes := h.outcomes
  orig := h.orig
  live := h.live
  target := by simp

theorem Follows.check (h : Follows s t) : Follows (check s) t := by
  unfold Object.check
  cases hp : s.1.ptr with
  | some p => simpa [hp] using h
  | none =>
    refine ⟨⟨h.requests, h.outcomes⟩, h.orig, h.live, ?_⟩
    rintro p ⟨⟩
    rfl

theorem check_isSome (s : RObject O × Trace κ ν) : (check s).1.ptr.isSome := by
  unfold Object.check
  cases hp : s.1.ptr <;> simp [hp]

theorem check_of_isSome (h : s.1.ptr.isSome) : check s = s := by
  obtain ⟨p, hp⟩ := Option.isSome_iff_exists.mp h
  rw [check, hp]

theorem Follows.isSome (h : Follows s t) : t.1.ptr.isSome := by
  obtain ⟨p, hp, -⟩ := h.live
  simp [hp]

/-- An update of the object that keeps its pointer and its record in step. -/
structure KeepsInStep (finish : RObject O → RObject O) : Prop where
  orig : ∀ o o', o.orig = o'.orig → (finish o).orig = (finish o').orig
  target : ∀ o p, o.ptr = some p → p.target = (reset o.orig).target →
    ∃ p', (finish o).ptr = some p' ∧ p'.target = (reset (finish o).orig).target

theorem keepsInStep_id : KeepsInStep (id : RObject O → RObject O) :=
  ⟨fun _ _ h => h, fun _ p hp ht => ⟨p, hp, ht⟩⟩

theorem keepsInStep_renamed (name : String) (db : Option String) :
    KeepsInStep (renamed name db : RObject O → RObject O) := by
  constructor
  · intro o o' h
    simp only [renamed, h]
  · intro o p hp ht
    refine ⟨_, by rw [renamed, hp]; rfl, ?_⟩
    simp [ht, reset, renamed]

theorem Follows.withPtr {finish : RObject O → RObject O} (h : Follows s t)
    (hs : s.1.ptr.isSome) (hf : KeepsInStep finish) (destroyed : String) (server : Server κ ν)
    (body : Target → Script κ ν) :
    Follows (withPtr destroyed server body finish s) (withPtr destroyed server body finish t) := by
  obtain ⟨p, hp⟩ := Option.isSome_iff_exists.mp hs
  obtain ⟨q, hq, hqt⟩ := h.live
  have hpt := h.target p hp
  have hsame : p.target = q.target := by rw [hpt, hqt, h.orig]
  unfold Object.withPtr
  simp only [hp, hq, hsame, h.requests]
  generalize runScript server q.target (body q.target) t.2.requests = r
  cases hr : r.1.toBool with
  | false =>
    refine ⟨⟨rfl, by simp [h.outcomes]⟩, ?_, ?_, ?_⟩
    · simpa [hr] using h.orig
    · simpa [hr] using h.live
    · simpa [hr] using h.target
  | true =>
    obtain ⟨p', hp', hpt'⟩ := hf.target s.1 p hp hpt
    obtain ⟨q', hq', hqt'⟩ := hf.target t.1 q hq hqt
    refine ⟨⟨rfl, by simp [h.outcomes]⟩, ?_, ?_, ?_⟩
    · simpa [hr] using hf.orig _ _ h.orig
    · exact ⟨q', by simpa [hr] using hq', by simpa [hr] using hqt'⟩
    · intro p'' hp''
      obtain rfl : p' = p'' := by simpa [hr, hp'] using hp''
      simpa [hr] using hpt'

theorem Follows.guarded {finish : RObject O → RObject O} (h : Follows s t)
    (hf : KeepsInStep finish) (destroyed : String) (server : Server κ ν)
    (body : Target → Script κ ν) :
    Follows (Object.withPtr destroyed server body finish (Object.check s))
      (Object.withPtr destroyed server body finish (Object.check t)) := by
  rw [check_of_isSome h.isSome]
  exact h.check.withPtr (check_isSome s) hf destroyed server body

/-- Where every method call keeps the relation, so do whole histories. -/
theorem Follows.run {μ : Type} {callMethod : μ → RObject O × Trace κ ν → RObject O × Trace κ ν}
    {ok : RObject O × Trace κ ν → Event μ → Prop}
    (hcall : ∀ s t m, Follows s t → ok s (.call m) → Follows (callMethod m s) (callMethod m t))
    (orig : Orig O) {events : List (Event μ)}
    (h : Meets (step callMethod) ok (Object.connected orig) events) :
    SameTrace (run (step callMethod) (Object.connected orig) events)
      (run (fun t m => callMethod m t) (Object.connected orig)
        (events.filterMap Event.method?)) := by
  refine (run_simulation (R := Follows) ?_ ?_ (.connected orig) h).toSameTrace
  · rintro s t (_ | _ | _) hR - hnone
    · simp [Event.method?] at hnone
    · exact hR.lose
    · exact hR.lose
  · rintro s t (m | _ | _) m' hR hok hsome
    · obtain rfl : m = m' := by simpa [Event.method?] using hsome
      exact hcall s t m hR hok
    · simp [Event.method?] at hsome
    · simp [Event.method?] at hsome

def Event.isRun : Event MongoMethod → Bool
  | .call (.run _) => true
  | _ => false

/-- The event is not a `run` on a null pointer. -/
def RunsConnected (s : RObject O × Trace CollectionCommand ν) (event : Event MongoMethod) : Prop :=
  event.isRun = true → s.1.ptr.isSome = true

instance (s : RObject O × Trace CollectionCommand ν) (event : Event MongoMethod) :
    Decidable (RunsConnected s event) :=
  inferInstanceAs (Decidable (event.isRun = true → s.1.ptr.isSome = true))

theorem Follows.call {s t : RObject O × Trace CollectionCommand ν}
    (server : Server CollectionCommand ν) (m : MongoMethod) (h : Follows s t)
    (hm : RunsConnected s (.call m)) : Follows (call server m s) (call server m t) := by
  unfold Object.call
  cases m with
  | run command => exact h.withPtr (hm rfl) keepsInStep_id _ server _
  | rename name db => exact h.guarded (keepsInStep_renamed name db) _ server _
  | insert data stop => cases data <;> exact h.guarded keepsInStep_id _ server _
  | find | iterate | «export» | «import» | aggregate | count | remove | drop | update | replace
  | mapreduce | distinct | info | index => exact h.guarded keepsInStep_id _ server _

theorem Follows.callFs {s t : RObject O × Trace GridfsCommand ν} (server : Server GridfsCommand ν)
    (m : GridfsMethod) (h : Follows s t) : Follows (callFs server m s) (callFs server m t) := by
  unfold Object.callFs
  cases m <;> exact h.guarded keepsInStep_id _ server _

/-- As long as `run` is not called on a null pointer, a history sends the same requests with and
without its losses, and every call has the same outcome; for gridfs objects this always holds. -/
theorem loss_transparent (server : Server CollectionCommand ν) (orig : Orig O)
    (events : List (Event MongoMethod))
    (h : Meets (step (call server)) RunsConnected (connected orig) events) :
    SameTrace (run (step (call server)) (connected orig) events)
        (run (fun t m => call server m t) (connected orig) (events.filterMap Event.method?)) ∧
      ∀ (serverFs : Server GridfsCommand ν) (origFs : Orig O)
        (eventsFs : List (Event GridfsMethod)),
        SameTrace (run (step (callFs serverFs)) (connected origFs) eventsFs)
          (run (fun t m => callFs serverFs m t) (connected origFs)
            (eventsFs.filterMap Event.method?)) := by
  constructor
  · exact Follows.run (fun _ _ m hR hok => hR.call server m hok) orig h
  · intro serverFs origFs eventsFs
    exact Follows.run (fun _ _ m hR _ => hR.callFs serverFs m) origFs (meets_true _ _ eventsFs)

def obliging : Server κ Unit := fun _ _ => .ok ()

/-- A `run` after another method has restored the pointer. -/
theorem loss_transparent_count_then_run :
    SameTrace
        (run (step (call obliging)) (connected ⟨"test", "test", "mongodb://localhost", some ()⟩)
          [.disconnect, .call (.count "\x7b\x7d"), .call (.run "\x7b\"ping\": 1\x7d")])
        (run (fun t m => call obliging m t)
          (connected ⟨"test", "test", "mongodb://localhost", some ()⟩)
          ([.disconnect, .call (.count "\x7b\x7d"), .call (.run "\x7b\"ping\": 1\x7d")].filterMap
            Event.method?)) ∧
      ∀ (serverFs : Server GridfsCommand Unit) (origFs : Orig Unit)
        (eventsFs : List (Event GridfsMethod)),
        SameTrace (run (step (callFs serverFs)) (connected origFs) eventsFs)
          (run (fun t m => callFs serverFs m t) (connected origFs)
            (eventsFs.filterMap Event.method?)) :=
  loss_transparent obliging _ _ (by decide)

/-- A `run` right after the loss sends nothing and raises. -/
theorem run_not_loss_transparent :
    ¬ SameTrace
        (run (step (call obliging)) (connected ⟨"test", "test", "mongodb://localhost", some ()⟩)
          [.disconnect, .call (.run "\x7b\"ping\": 1\x7d")])
        (run (fun t m => call obliging m t)
          (connected ⟨"test", "test", "mongodb://localhost", some ()⟩)
          [.run "\x7b\"ping\": 1\x7d"]) := by
  intro h
  exact absurd h.requests (by decide)

end Mongolite.Object
