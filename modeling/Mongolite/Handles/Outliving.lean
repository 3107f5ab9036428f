import Mongolite.Handles.Making

/-! # No handle outlives its client

Every step keeps the ownership invariant except the disconnection of a
collection under a live cursor that is still held: the cursor then loses its way
to the client, and the next garbage collection can destroy it.
-/

namespace Mongolite.Handles

variable {P : Type} {s s' : Session P} {i j k c : ℕ} {p q : ExternalPtr}

theorem refs_finalize {destroy : ℕ → Session P → Session P}
    (hd : ∀ c s, (destroy c s).refs = s.refs) (i : ℕ) (s : Session P) :
    (finalize destroy i s).refs = s.refs := by
  unfold finalize
  cases s.heap[i]? with
  | none => rfl
  | some p => cases hp : p.addr <;> simp [hp, hd]

theorem refs_touchClient (c : ℕ) (s : Session P) : (Handles.touchClient c s).refs = s.refs := by
  unfold Handles.touchClient
  split <;> rfl

theorem refs_runFinalizer (i : ℕ) (s : Session P) : (runFinalizer i s).refs = s.refs := by
  unfold runFinalizer
  cases s.heap[i]? with
  | none => rfl
  | some p =>
    have hclient : ∀ c (s : Session P), (mongocClientDestroy c s).refs = s.refs := fun _ _ => rfl
    cases hp : p.kind <;> simp only [hp]
    · exact refs_finalize hclient i _
    · exact refs_finalize (fun _ _ => rfl) i _
    · exact refs_finalize (fun _ _ => rfl) i _
    · exact refs_finalize refs_touchClient i _

theorem refs_runReady (n : ℕ) (s : Session P) : (runReady n s).refs = s.refs := by
  induction n generalizing s with
  | zero => rfl
  | succ n ih =>
    rw [runReady, ih]
    split
    · exact refs_runFinalizer n s
    · rfl

theorem Inv.next (h : Inv s) (k : ℕ) : Inv (mongoCursorNext k s) := by
  unfold mongoCursorNext
  rcases s.refs[k]?.join with _ | _ | _ | cur <;> simp only
  · exact h
  · exact h
  · exact h
  · cases hp : s.heap[cur]? with
    | none => simpa [hp] using h
    | some p =>
      cases ha : p.addr with
      | false => simpa [hp, ha] using h
      | true => simpa [hp, ha, h.touchClient hp ha] using h

theorem Inv.drop (h : Inv s) (k : ℕ) : Inv (drop k s) := by
  refine h.withRefs fun r hr => .inl ?_
  rcases List.mem_or_eq_of_mem_set hr with hr | hr
  · exact hr
  · simp at hr

theorem Inv.finCollection (h : Inv s) (hi : Held s i) (hp : s.heap[i]? = some p)
    (hk : p.kind ≠ .client)
    (hcur : ∀ (j : ℕ) (q : ExternalPtr), Held s j → s.heap[j]? = some q → q.kind = .cursor →
      q.addr = true → q.prot ≠ some i) : Inv (finCollection i s) := by
  obtain ⟨p', hp', hreg, -⟩ := h.held i hi
  obtain rfl : p = p' := Option.some.inj (hp.symm.trans hp')
  rw [Handles.finCollection, finalize, hp]
  cases ha : p.addr with
  | false => simpa [ha] using h
  | true =>
    simp only [ha, if_true, modify_eq_set hp]
    exact h.clear ⟨hp, rfl, rfl, rfl, rfl, .inl rfl, rfl, rfl, fun _ hc => .inl hc,
      fun _ _ hc => ⟨hc, fun hd => absurd (hreg.symm.trans hd) (by decide)⟩, .inl ⟨rfl, hk⟩⟩ hcur

/-- Disconnecting the object cuts a live cursor that an iterator still holds off its client. -/
def cutsCursor (s : Session P) (k : ℕ) : Bool :=
  match s.refs[k]?.join with
  | some (.mongo _ col) => s.refs.any fun r =>
    match r with
    | some (.iterator cur) => s.heap[cur]?.any fun p => p.addr && p.prot == some col
    | _ => false
  | _ => false

theorem cutsCursor_iff : cutsCursor s k = true ↔ ∃ params col cur p,
    s.refs[k]?.join = some (.mongo params col) ∧ some (.iterator cur) ∈ s.refs ∧
      s.heap[cur]? = some p ∧ p.addr = true ∧ p.prot = some col := by
  unfold cutsCursor
  rcases hk : s.refs[k]?.join with _ | ⟨params, col⟩ | _ | _ <;> simp only
  · simp
  · rw [List.any_eq_true]
    constructor
    · rintro ⟨_ | _ | _ | cur, href, hcur⟩
      · simp at hcur
      · simp at hcur
      · simp at hcur
      · cases hp : s.heap[cur]? with
        | none => simp [hp] at hcur
        | some p => exact ⟨params, col, cur, p, rfl, href, hp, by simpa [hp] using hcur⟩
    · rintro ⟨params', col', cur, p, heq, href, hp, ha, hprot⟩
      obtain ⟨-, rfl⟩ : params = params' ∧ col = col' := by simpa using heq
      exact ⟨_, href, by simp [hp, ha, hprot]⟩
  · simp
  · simp

theorem Inv.disconnect (h : Inv s) (hcut : cutsCursor s k = false) : Inv (disconnect k s) := by
  unfold Handles.disconnect
  rcases hk : s.refs[k]?.join with _ | ⟨params, col⟩ | ⟨params, fs⟩ | cur <;> simp only
  · exact h
  · obtain ⟨p, hp, hpk⟩ := h.refs _ (mem_refs hk)
    refine h.finCollection (.root (mem_roots.mpr ⟨_, mem_refs hk, rfl⟩)) hp
      (by simp [hpk, Ref.kind]) fun j q hj hq hqk hqa hprot => ?_
    rw [← Bool.not_eq_true, cutsCursor_iff] at hcut
    exact hcut ⟨params, col, j, q, hk, h.held_cursor hj hq hqk, hq, hqa, hprot⟩
  · obtain ⟨p, hp, hpk⟩ := h.refs _ (mem_refs hk)
    refine h.finCollection (.root (mem_roots.mpr ⟨_, mem_refs hk, rfl⟩)) hp
      (by simp [hpk, Ref.kind]) fun j q hj hq hqk hqa hprot => ?_
    -- a held live cursor protects a collection, never a gridfs object
    obtain ⟨q', hq', -, hc⟩ := h.held j hj
    obtain rfl : q = q' := Option.some.inj (hq.symm.trans hq')
    obtain ⟨b, r, hb, hr, hrk, -⟩ := hc hqk hqa
    obtain rfl : b = fs := Option.some.inj (hb.symm.trans hprot)
    obtain rfl : p = r := Option.some.inj (hp.symm.trans hr)
    simp [hpk, Ref.kind] at hrk
  · exact h

section Steps

variable [DecidableEq P] {params : P}

theorem Inv.mongoClientNew (h : Inv s) (params : P) :
    ∃ s' c, mongoClientNew params s = (s', c) ∧ Inv s' ∧ s'.refs = s.refs ∧
      Usable s' .client c := by
  have hnew : (Handles.makeExternalPtr .client s.heap.length none s).heap[s.heap.length]? =
      some ⟨.client, s.heap.length, true, none, .registered⟩ := by simp [Handles.makeExternalPtr]
  have hinv : Inv (Handles.makeExternalPtr .client s.heap.length none s) :=
    h.makeExternalPtr (.inl ⟨rfl, rfl, rfl⟩) (by simp) (by simp)
  refine ⟨_, _, rfl, { hinv with pool := fun params' c hc => ?_ }, rfl,
    ⟨_, hnew, rfl, rfl, rfl, _, hnew, rfl⟩⟩
  by_cases hp : params' = params
  · subst hp
    obtain rfl : s.heap.length = c := by simpa using hc
    exact ⟨_, hnew, rfl, by simp⟩
  · exact hinv.pool params' c (by simpa [hp, Handles.makeExternalPtr] using hc)

theorem Inv.newClient (h : Inv s) (params : P) :
    ∃ s' c, newClient params s = (s', c) ∧ Inv s' ∧ s'.refs = s.refs ∧ Usable s' .client c := by
  obtain ⟨hinv, hnone⟩ := h.runPendingFinalizers
  have hrefs : (Handles.runPendingFinalizers s).refs = s.refs := refs_runReady _ s
  rw [Handles.newClient, getWeakref]
  cases hpool : s.pool params with
  | none => exact h.mongoClientNew params
  | some key =>
    cases hkey : ((Handles.runPendingFinalizers s).pool params).join with
    | none =>
      simp only [hkey]
      rw [← hrefs]
      exact hinv.mongoClientNew params
    | some c =>
      simp only [hkey]
      by_cases hnull : nullPtr (Handles.runPendingFinalizers s) c = true
      · rw [if_pos hnull, ← hrefs]
        exact hinv.mongoClientNew params
      · rw [if_neg hnull]
        refine ⟨_, c, rfl, hinv, hrefs, ?_⟩
        obtain ⟨q, hq, hk, hf⟩ := hinv.pool params c (by simpa [Option.join_eq_some_iff] using hkey)
        obtain ⟨-, -, -, -, hself⟩ := hinv.client c q hq
        have hreg : q.finalizer = .registered := by
          cases hqf : q.finalizer with
          | registered => rfl
          | ready =>
            have := hnone c
            simp [isReady, hq, hqf] at this
          | done => exact absurd hqf hf
        exact ⟨q, hq, hk, by simpa [nullPtr, hq] using hnull, hreg, q, by rwa [hself.mp hk], hreg⟩

theorem Inv.openHandle (h : Inv s) {kind : Kind} (hk : kind = .collection ∨ kind = .gridfs)
    (params : P) :
    ∃ s' i, openHandle (Handles.makeFrom kind) params s = (s', some i) ∧ Inv s' ∧ s'.refs = s.refs ∧
      (∃ p, s'.heap[i]? = some p ∧ p.kind = kind) ∧
      ∀ j, Keeps (protOf s') i j → Sound s' j := by
  obtain ⟨s₁, c, hs₁, hinv, hrefs, huse⟩ := h.newClient params
  obtain ⟨s₂, hs₂, hinv₂, hrefs₂, hp, hsound⟩ := hinv.makeFrom huse (.inr ⟨hk, rfl⟩)
  exact ⟨s₂, _, by rw [Handles.openHandle, hs₁]; exact hs₂, hinv₂, hrefs₂.trans hrefs, hp, hsound⟩

theorem Inv.mongo (h : Inv s) (params : P) : Inv (mongo params s) := by
  obtain ⟨s', i, hs', hinv, -, hp, hsound⟩ := h.openHandle (.inl rfl) params
  rw [Handles.mongo, mongoCollectionNew, hs', bindNew]
  exact hinv.bind (r := .mongo params i) (by simp) hp hsound

theorem Inv.gridfs (h : Inv s) (params : P) : Inv (gridfs params s) := by
  obtain ⟨s', i, hs', hinv, -, hp, hsound⟩ := h.openHandle (.inr rfl) params
  rw [Handles.gridfs, mongoGridfsNew, hs', bindNew]
  exact hinv.bind (r := .gridfs params i) (by simp) hp hsound

theorem Inv.check (h : Inv s) (k : ℕ) : Inv (check k s) := by
  unfold Handles.check
  rcases hk : s.refs[k]?.join with _ | ⟨params, col⟩ | ⟨params, fs⟩ | cur <;> simp only
  · exact h
  · split
    · obtain ⟨s', i, hs', hinv, -, hp, hsound⟩ := h.openHandle (.inl rfl) params
      rw [collectionReset, mongoCollectionNew, hs', rebind]
      exact hinv.bind (r := .mongo params i) (fun _ => mem_set_of) hp hsound
    · exact h
  · split
    · obtain ⟨s', i, hs', hinv, -, hp, hsound⟩ := h.openHandle (.inr rfl) params
      rw [gridfsReset, mongoGridfsNew, hs', rebind]
      exact hinv.bind (r := .gridfs params i) (fun _ => mem_set_of) hp hsound
    · exact h
  · exact h

theorem Inv.iterate (h : Inv s) (k : ℕ) : Inv (iterate k s) := by
  have hc := h.check k
  unfold Handles.iterate
  generalize Handles.check k s = s' at hc
  rcases hk : s'.refs[k]?.join with _ | ⟨params, col⟩ | _ | _ <;> simp only [hk]
  · exact hc
  · obtain ⟨p, hp, hpk⟩ := hc.refs _ (mem_refs hk)
    cases ha : p.addr with
    | false => simpa [mongoCollectionFind, Handles.makeFrom, show s'.heap[col]? = some p from hp,
        ha, bindNew] using hc
    | true =>
      have hheld : Held s' col := .root (mem_roots.mpr ⟨_, mem_refs hk, rfl⟩)
      have huse := hc.usable_of_held hheld hp ha
      rw [hpk] at huse
      obtain ⟨s'', hs'', hinv, -, hp', hsound⟩ := hc.makeFrom huse (.inl ⟨rfl, rfl⟩)
      simp only [mongoCollectionFind]
      rw [hs'', bindNew]
      exact hinv.bind (r := .iterator s'.heap.length) (by simp) hp' hsound
  · exact hc
  · exact hc

/-- The step is not a disconnection that cuts a live cursor, still held, off its client. -/
def KeepsCursors (s : Session P) : Op P → Prop
  | .disconnect k => cutsCursor s k = false
  | _ => True

instance (s : Session P) (op : Op P) : Decidable (KeepsCursors s op) :=
  match op with
  | .disconnect k => inferInstanceAs (Decidable (cutsCursor s k = false))
  | .mongo _ | .gridfs _ | .call _ | .iterate _ | .next _ | .drop _ | .collect
  | .runPendingFinalizers => isTrue trivial

/-- One step keeps the invariant, unless it disconnects a collection under a held cursor. -/
theorem Inv.step (h : Inv s) (op : Op P) (hop : KeepsCursors s op) : Inv (step s op) := by
  cases op with
  | mongo params => exact h.mongo params
  | gridfs params => exact h.gridfs params
  | call k => exact h.check k
  | iterate k => exact h.iterate k
  | next k => exact h.next k
  | disconnect k => exact h.disconnect hop
  | drop k => exact h.drop k
  | collect => exact h.collect
  | runPendingFinalizers => exact h.runPendingFinalizers.1

/-- In a session that never disconnects a collection under a live cursor that is held, no handle
ever outlives its client. -/
theorem run_safe (ops : List (Op P)) (h : Meets step KeepsCursors Session.start ops) :
    Safe (run step Session.start ops) := by
  have hstep : ∀ (s : Session P) op, Inv s → KeepsCursors s op → Inv (step s op) :=
    fun s op hs hop => hs.step op hop
  exact (run_invariant hstep Inv.start h).safe

end Steps

/-- Dropping the iterator before the disconnection is enough. -/
theorem run_safe_drop_iterator :
    Safe (run step Session.start [.mongo "mongodb://localhost", .iterate 0, .next 1, .drop 1,
      .disconnect 0, .collect, .runPendingFinalizers]) :=
  run_safe _ (by decide)

/-- A cursor still held when its collection is disconnected steps on a destroyed client. -/
theorem run_unsafe_disconnect :
    ¬ Safe (run step Session.start [.mongo "mongodb://localhost", .iterate 0, .disconnect 0,
      .collect, .runPendingFinalizers, .next 1]) := by
  intro h
  exact absurd h.faults (by decide)

end Mongolite.Handles
