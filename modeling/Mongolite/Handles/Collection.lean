import Mongolite.Handles.Invariant

/-! # Garbage collection keeps the ownership invariant

Marking makes a client ready together with all of its live handles, and running
the ready finalizers from the most recent one down destroys every handle before
the client it needs.
-/

namespace Mongolite.Handles

variable {P : Type} {s : Session P} {i j n c : ℕ} {p q : ExternalPtr}

theorem modify_eq_set {l : List ExternalPtr} {f : ExternalPtr → ExternalPtr}
    (h : l[i]? = some p) : l.modify i f = l.set i (f p) := by
  simp [List.modify_eq_set_getElem?, h]

theorem set_modify {l : List ExternalPtr} {f : ExternalPtr → ExternalPtr} (h : i < l.length) :
    (l.set i p).modify i f = l.set i (f p) := by
  rw [modify_eq_set (p := p) (by simp [h]), List.set_set]

theorem clearWeakrefs_eq {pool : P → Option (Option ℕ)} {params : P}
    (h : clearWeakrefs i pool params = some (some c)) : pool params = some (some c) ∧ c ≠ i := by
  unfold clearWeakrefs at h
  by_cases hp : pool params = some (some i)
  · simp [hp] at h
  · rw [if_neg hp] at h
    refine ⟨h, ?_⟩
    rintro rfl
    exact hp h

def finalized (p : ExternalPtr) : ExternalPtr :=
  if p.addr then { p with addr := false, prot := none, finalizer := .done }
  else { p with finalizer := .done }

theorem runFinalizer_of_null (hp : s.heap[i]? = some p) (ha : p.addr = false) :
    runFinalizer i s = { s with
      heap := s.heap.set i (finalized p), pool := clearWeakrefs i s.pool } := by
  have hi : i < s.heap.length := (List.getElem?_eq_some_iff.mp hp).1
  rw [runFinalizer, hp]
  cases hk : p.kind <;>
    simp [finCollection, finGridfs, finCursor, finClient, finalize, modify_eq_set hp, hi, ha, hk,
      finalized]

theorem runFinalizer_of_addr (hp : s.heap[i]? = some p) (ha : p.addr = true)
    (hc : p.client ∉ s.destroyed) :
    runFinalizer i s = { s with
      heap := s.heap.set i (finalized p), pool := clearWeakrefs i s.pool,
      destroyed := if p.kind = .client then p.client :: s.destroyed else s.destroyed } := by
  have hi : i < s.heap.length := (List.getElem?_eq_some_iff.mp hp).1
  rw [runFinalizer, hp]
  cases hk : p.kind <;>
    simp [finCollection, finGridfs, finCursor, finClient, finalize, modify_eq_set hp, hi, ha, hk,
      finalized, set_modify hi, touchClient, mongocClientDestroy, hc]

theorem isReady_iff : isReady s i = true ↔ ∃ p, s.heap[i]? = some p ∧ p.finalizer = .ready := by
  unfold isReady
  cases s.heap[i]? <;> simp

theorem isReady_lt (h : isReady s j = true) : j < s.heap.length := by
  obtain ⟨p, hp, -⟩ := isReady_iff.mp h
  exact (List.getElem?_eq_some_iff.mp hp).1

theorem Inv.runFinalizer (h : Inv s) (hready : isReady s i = true)
    (hmax : ∀ j, isReady s j → j ≤ i) : Inv (runFinalizer i s) := by
  obtain ⟨p, hp, hf⟩ := isReady_iff.mp hready
  have hcut : ∀ (j : ℕ) (q : ExternalPtr), Held s j → s.heap[j]? = some q → q.kind = .cursor →
      q.addr = true → q.prot ≠ some i := by
    intro j q hj hq _ _ hi
    obtain ⟨p', hp', hreg, -⟩ := h.held i (hj.next ((protOf_eq hq).trans hi))
    obtain rfl : p = p' := Option.some.inj (hp.symm.trans hp')
    simp [hf] at hreg
  suffices hs : Cleared s (Handles.runFinalizer i s) i p (finalized p) from h.clear hs hcut
  cases ha : p.addr with
  | false =>
    rw [runFinalizer_of_null hp ha]
    refine ⟨hp, rfl, ?_, ?_, ?_, ?_, rfl, rfl, ?_, ?_, ?_⟩
    · simp [finalized, ha]
    · simp [finalized, ha]
    · simp [finalized, ha]
    · exact .inr (by simp [finalized, ha])
    · exact fun _ hc => .inl hc
    · exact fun _ _ hc => ⟨(clearWeakrefs_eq hc).1, fun _ => (clearWeakrefs_eq hc).2⟩
    · exact .inr ⟨by simp [finalized, ha], hf, hmax⟩
  | true =>
    rw [runFinalizer_of_addr hp ha (h.undestroyed hp ha)]
    refine ⟨hp, rfl, ?_, ?_, ?_, ?_, rfl, rfl, ?_, ?_, ?_⟩
    · simp [finalized, ha]
    · simp [finalized, ha]
    · simp [finalized, ha]
    · exact .inl (by simp [finalized, ha])
    · intro c hc
      obtain ⟨-, -, -, -, hself⟩ := h.client i p hp
      by_cases hk : p.kind = .client
      · rcases List.mem_cons.mp (by simpa [hk] using hc) with rfl | hd
        · exact .inr (hself.mp hk)
        · exact .inl hd
      · exact .inl (by simpa [hk] using hc)
    · exact fun _ _ hc => ⟨(clearWeakrefs_eq hc).1, fun _ => (clearWeakrefs_eq hc).2⟩
    · exact .inr ⟨by simp [finalized, ha], hf, hmax⟩

theorem isReady_runFinalizer (h : Inv s) (j : ℕ) :
    isReady (Handles.runFinalizer i s) j = (decide (i ≠ j) && isReady s j) := by
  cases hp : s.heap[i]? with
  | none =>
    rw [Handles.runFinalizer, hp]
    by_cases hij : i = j
    · subst hij
      simp [isReady, hp]
    · simp [hij]
  | some p =>
    have hheap : (Handles.runFinalizer i s).heap = s.heap.set i (finalized p) := by
      cases ha : p.addr with
      | false => rw [runFinalizer_of_null hp ha]
      | true => rw [runFinalizer_of_addr hp ha (h.undestroyed hp ha)]
    rw [isReady, hheap, getElem?_set_of hp]
    by_cases hij : i = j
    · subst hij
      cases ha : p.addr <;> simp [finalized, ha]
    · simp [hij, isReady]

theorem Inv.runReady (h : Inv s) (hn : ∀ j, isReady s j → j < n) :
    Inv (runReady n s) ∧ ∀ j, isReady (Handles.runReady n s) j = false := by
  induction n generalizing s with
  | zero =>
    refine ⟨h, fun j => ?_⟩
    rw [← Bool.not_eq_true]
    exact fun hj => Nat.not_lt_zero j (hn j hj)
  | succ n ih =>
    rw [Handles.runReady]
    by_cases hr : isReady s n = true
    · rw [if_pos hr]
      refine ih (h.runFinalizer hr fun j hj => Nat.lt_succ_iff.mp (hn j hj)) fun j hj => ?_
      rw [isReady_runFinalizer h] at hj
      simp only [ne_eq, decide_not, Bool.and_eq_true, Bool.not_eq_true',
        decide_eq_false_iff_not] at hj
      have := hn j hj.2
      omega
    · rw [if_neg hr]
      refine ih h fun j hj => ?_
      have hne : j ≠ n := by
        rintro rfl
        exact hr hj
      have := hn j hj
      omega

theorem Inv.runPendingFinalizers (h : Inv s) :
    Inv (runPendingFinalizers s) ∧ ∀ j, isReady (Handles.runPendingFinalizers s) j = false :=
  h.runReady fun _ hj => isReady_lt hj

def swept (s : Session P) (i : ℕ) (p : ExternalPtr) : ExternalPtr :=
  if p.finalizer = .registered ∧ marked (protOf s) (roots s) i = false then
    { p with finalizer := .ready }
  else p

theorem collect_heap (s : Session P) (i : ℕ) :
    (collect s).heap[i]? = s.heap[i]?.map (swept s i) := by
  simp only [collect, List.getElem?_mapIdx]
  rfl

theorem collect_cases (hq : (collect s).heap[i]? = some q) :
    ∃ p, s.heap[i]? = some p ∧ q = swept s i p := by
  rw [collect_heap] at hq
  obtain ⟨p, hp, rfl⟩ := Option.map_eq_some_iff.mp hq
  exact ⟨p, hp, rfl⟩

@[simp] theorem swept_kind : (swept s i p).kind = p.kind := by unfold swept; split <;> rfl
@[simp] theorem swept_client : (swept s i p).client = p.client := by unfold swept; split <;> rfl
@[simp] theorem swept_addr : (swept s i p).addr = p.addr := by unfold swept; split <;> rfl
@[simp] theorem swept_prot : (swept s i p).prot = p.prot := by unfold swept; split <;> rfl

@[simp] theorem swept_done : (swept s i p).finalizer = .done ↔ p.finalizer = .done := by
  unfold swept
  split
  case isTrue h => simp [h.1]
  case isFalse => rfl

theorem swept_of_held (h : Inv s) (hi : Held s i) : swept s i p = p := by
  have hm : marked (protOf s) (roots s) i = true := (marked_iff h.ownsOlder).mpr hi
  simp [swept, hm]

theorem swept_of_not_held (h : Inv s) (hi : ¬ Held s i) (hf : p.finalizer = .registered) :
    (swept s i p).finalizer = .ready := by
  have hm : marked (protOf s) (roots s) i = false := by
    rw [← Bool.not_eq_true, marked_iff h.ownsOlder]
    exact hi
  simp [swept, hm, hf]

theorem protOf_collect (s : Session P) : protOf (collect s) = protOf s := by
  ext i
  rw [protOf, collect_heap, protOf]
  cases s.heap[i]? <;> simp

theorem Inv.collect (h : Inv s) : Inv (collect s) := by
  have hlook : ∀ {j : ℕ} {q : ExternalPtr}, s.heap[j]? = some q →
      (Handles.collect s).heap[j]? = some (swept s j q) := by
    intro j q hq
    rw [collect_heap, hq, Option.map_some]
  have hheld : ∀ j, Held (Handles.collect s) j ↔ Held s j := by
    intro j
    unfold Held
    rw [protOf_collect]
    rfl
  constructor
  case client =>
    intro i q hq
    obtain ⟨p, hp, rfl⟩ := collect_cases hq
    obtain ⟨q', hq', hk, hrest⟩ := h.client i p hp
    exact ⟨_, by simpa using hlook hq', by simpa using hk, by simpa using hrest⟩
  case prot =>
    intro i q j hq hj
    obtain ⟨p, hp, rfl⟩ := collect_cases hq
    obtain ⟨hlt, q', hq', hk⟩ := h.prot i p j hp (by simpa using hj)
    exact ⟨hlt, _, hlook hq', by simpa using hk⟩
  case null =>
    intro i q hq hd
    obtain ⟨p, hp, rfl⟩ := collect_cases hq
    simpa using h.null i p hp (by simpa using hd)
  case root =>
    intro i q hq hk
    obtain ⟨p, hp, rfl⟩ := collect_cases hq
    simpa using h.root i p hp (by simpa using hk)
  case destroyed =>
    intro c hc
    obtain ⟨q, hq, hn⟩ := h.destroyed c hc
    exact ⟨_, hlook hq, by simpa using hn⟩
  case linked =>
    intro i q hq ha hk
    obtain ⟨p, hp, rfl⟩ := collect_cases hq
    simpa using h.linked i p hp (by simpa using ha) (by simpa using hk)
  case owner =>
    intro i q q' hq ha hq'
    obtain ⟨p, hp, rfl⟩ := collect_cases hq
    obtain ⟨r, hr, rfl⟩ := collect_cases hq'
    rw [swept_addr] at ha
    rw [swept_client] at hr ⊢
    obtain ⟨hnd, hready⟩ := h.owner i p r hp ha hr
    refine ⟨by simpa using hnd, fun hsr => ?_⟩
    by_cases hi : Held s i
    · -- a held pointer holds its client, which marking then leaves alone
      rw [swept_of_held h (h.client_held hi hp ha)] at hsr
      rw [swept_of_held h hi]
      exact hready hsr
    · cases hf : p.finalizer with
      | registered => exact swept_of_not_held h hi hf
      | ready => simp [swept, hf]
      | done => simp [h.null i p hp hf] at ha
  case held =>
    intro i hi
    rw [hheld] at hi
    obtain ⟨p, hp, hf, hc⟩ := h.held i hi
    refine ⟨p, by rw [hlook hp, swept_of_held h hi], hf, fun hk ha => ?_⟩
    obtain ⟨j, q, hj, hq, hqk, hqa, hqc⟩ := hc hk ha
    exact ⟨j, _, hj, hlook hq, by simpa using hqk, by simpa using hqa, by simpa using hqc⟩
  case refs =>
    intro r hr
    obtain ⟨p, hp, hk⟩ := h.refs r hr
    exact ⟨_, hlook hp, by simpa using hk⟩
  case pool =>
    intro params c hc
    obtain ⟨q, hq, hk, hf⟩ := h.pool params c hc
    exact ⟨_, hlook hq, by simpa using hk, by simpa using hf⟩
  case faults => exact h.faults

end Mongolite.Handles
