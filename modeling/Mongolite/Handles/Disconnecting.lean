import Mongolite.Handles.Outliving

/-! # Cutting a held cursor off is fatal

After a disconnection that cuts a live cursor off, dropping every other variable
and collecting garbage destroys the client while the cursor is alive.
-/

namespace Mongolite.Handles

variable {P : Type} {s : Session P} {i j k m n c : ℕ} {p q : ExternalPtr}

theorem getElem?_runFinalizer_ne (h : i ≠ j) (s : Session P) :
    (runFinalizer i s).heap[j]? = s.heap[j]? := by
  have hmodify : ∀ (l : List ExternalPtr) f, (l.modify i f)[j]? = l[j]? := fun l f => by
    simp [h]
  have hfin : ∀ (destroy : ℕ → Session P → Session P) (s : Session P),
      (finalize destroy i s).heap[j]? = s.heap[j]? := by
    intro destroy s
    unfold finalize
    cases s.heap[i]? with
    | none => rfl
    | some p => cases hp : p.addr <;> simp [hp, hmodify]
  unfold runFinalizer
  cases s.heap[i]? with
  | none => rfl
  | some p =>
    cases hp : p.kind <;>
      simp [hp, finClient, finCollection, finGridfs, finCursor, hfin, hmodify]

theorem destroyed_runFinalizer (hc : c ∈ s.destroyed) : c ∈ (runFinalizer i s).destroyed := by
  have hfin : ∀ (destroy : ℕ → Session P → Session P) (s : Session P), c ∈ s.destroyed →
      (∀ d, c ∈ (destroy d s).destroyed) → c ∈ (finalize destroy i s).destroyed := by
    intro destroy s hc hd
    unfold finalize
    cases s.heap[i]? with
    | none => exact hc
    | some p => cases hp : p.addr <;> simp [hp, hc, hd]
  unfold runFinalizer
  cases s.heap[i]? with
  | none => exact hc
  | some p =>
    cases hp : p.kind <;> simp only [hp]
    · exact hfin _ _ hc fun d => List.mem_cons_of_mem d hc
    · exact hfin _ _ hc fun _ => hc
    · exact hfin _ _ hc fun _ => hc
    · refine hfin _ _ hc fun d => ?_
      unfold touchClient
      split <;> exact hc

theorem destroyed_runReady (hc : c ∈ s.destroyed) : c ∈ (runReady n s).destroyed := by
  induction n generalizing s with
  | zero => exact hc
  | succ n ih =>
    rw [runReady]
    split
    · exact ih (destroyed_runFinalizer hc)
    · exact ih hc

theorem getElem?_runReady (hj : isReady s j = false) : (runReady n s).heap[j]? = s.heap[j]? := by
  induction n generalizing s with
  | zero => rfl
  | succ n ih =>
    rw [runReady]
    split
    case isTrue hn =>
      have hne : n ≠ j := by
        rintro rfl
        simp [hj] at hn
      rw [ih, getElem?_runFinalizer_ne hne]
      rw [isReady, getElem?_runFinalizer_ne hne]
      exact hj
    case isFalse => exact ih hj

theorem runReady_destroys (hn : c < n) (hq : s.heap[c]? = some q) (hk : q.kind = .client)
    (ha : q.addr = true) (hf : q.finalizer = .ready) : q.client ∈ (runReady n s).destroyed := by
  induction n generalizing s with
  | zero => exact absurd hn (Nat.not_lt_zero c)
  | succ n ih =>
    rw [runReady]
    by_cases hcn : c = n
    · subst hcn
      rw [if_pos (isReady_iff.mpr ⟨q, hq, hf⟩)]
      refine destroyed_runReady ?_
      have hc : c < s.heap.length := (List.getElem?_eq_some_iff.mp hq).1
      rw [runFinalizer, hq]
      simp [hk, finClient, finalize, modify_eq_set hq, hc, ha, mongocClientDestroy]
    · have hlt : c < n := by omega
      split
      · exact ih hlt ((getElem?_runFinalizer_ne (Ne.symm hcn) s).trans hq)
      · exact ih hlt hq

theorem mem_refs_of_drops {refs old : List (Option (Ref P))} {r : Ref P}
    (hm : old[m]? = some (some r))
    (hget : ∀ j, refs[j]?.join =
      if j ∈ (List.range old.length).filter (· ≠ m) then none else old[j]?.join) :
    some r ∈ refs ∧ ∀ r', some r' ∈ refs → r' = r := by
  have hone : refs[m]?.join = some r := by simp [hget, hm]
  refine ⟨List.mem_of_getElem? (Option.join_eq_some_iff.mp hone), fun r' hr' => ?_⟩
  obtain ⟨j, hj, hjr⟩ := List.getElem_of_mem hr'
  have hjoin : refs[j]?.join = some r' := by simp [List.getElem?_eq_getElem hj, hjr]
  by_cases hjm : j = m
  · subst hjm
    exact Option.some.inj (hjoin.symm.trans hone)
  · rw [hget] at hjoin
    by_cases hlt : j < old.length
    · simp [hlt, hjm] at hjoin
    · simp [hlt] at hjoin

section Steps

variable [DecidableEq P]

theorem run_drops (ks : List ℕ) (s : Session P) : ∃ refs, run step s (ks.map .drop) =
    { s with refs := refs } ∧ ∀ j, refs[j]?.join = if j ∈ ks then none else s.refs[j]?.join := by
  induction ks generalizing s with
  | nil => exact ⟨s.refs, rfl, by simp⟩
  | cons k ks ih =>
    obtain ⟨refs, hrun, hget⟩ := ih (drop k s)
    refine ⟨refs, hrun, fun j => ?_⟩
    rw [hget, drop, List.getElem?_set]
    by_cases hjk : k = j
    · subst hjk
      by_cases hlt : k < s.refs.length <;> simp [hlt]
    · simp [hjk, Ne.symm hjk]

/-- A session in which the only variable is an iterator whose cursor reaches no client: the next
garbage collection destroys the client and leaves the cursor alive. -/
theorem unsafe_after_gc (hroots : ∀ r ∈ roots s, r = c) (hcur : c ∈ roots s)
    (hp : s.heap[c]? = some p) (hk : p.kind = .cursor) (ha : p.addr = true)
    (hpf : p.finalizer = .registered) (hq : s.heap[p.client]? = some q) (hqk : q.kind = .client)
    (hqc : q.client = p.client) (hqa : q.addr = true) (hqf : q.finalizer = .registered)
    (hcut : ∀ i, Keeps (protOf s) c i → i ≠ p.client) :
    ¬ Safe (run step s [.collect, .runPendingFinalizers]) := by
  have hp' : (collect s).heap[c]? = some p := by
    rw [collect_heap, hp, Option.map_some, swept, marked_root hcur]
    simp
  have hmark : marked (protOf s) (roots s) p.client = false := by
    rw [← Bool.not_eq_true]
    intro hm
    obtain ⟨r, hr, hkeeps⟩ := reachable_of_marked hm
    exact hcut _ (hroots r hr ▸ hkeeps) rfl
  have hq' : (collect s).heap[p.client]? = some { q with finalizer := .ready } := by
    rw [collect_heap, hq, Option.map_some, swept, hmark]
    simp [hqf]
  have hlt : p.client < (collect s).heap.length := (List.getElem?_eq_some_iff.mp hq').1
  have hdead := runReady_destroys hlt hq' hqk hqa rfl
  have hnot : isReady (collect s) c = false := by simp [isReady, hp', hpf]
  intro hsafe
  refine hsafe.alive c p ?_ (by simp [hk]) ha (hqc ▸ hdead)
  exact (getElem?_runReady hnot).trans hp'

/-- A disconnection that cuts a held live cursor off can always be continued to a violation. -/
theorem disconnect_outlives (h : Inv s) (hcut : cutsCursor s k = true) :
    ∃ ops, ¬ Safe (run step s (.disconnect k :: ops)) := by
  obtain ⟨params, col, cur, p, hk, href, hp, ha, hprot⟩ := cutsCursor_iff.mp hcut
  obtain ⟨p', hp', hpk⟩ := h.refs _ href
  obtain rfl : p = p' := Option.some.inj (hp.symm.trans hp')
  have hheld : Held s cur := .root (mem_roots.mpr ⟨_, href, rfl⟩)
  obtain ⟨r, hr, hpf, hsound⟩ := h.held cur hheld
  obtain rfl : p = r := Option.some.inj (hp.symm.trans hr)
  obtain ⟨col', pc, hcol', hpc, hpck, hpca, -⟩ := hsound hpk ha
  obtain rfl : col = col' := Option.some.inj (hprot.symm.trans hcol')
  obtain ⟨q, hq, hqk, -, -⟩ := h.client cur p hp
  obtain ⟨-, -, -, -, hqself⟩ := h.client _ q hq
  have hqf := h.client_registered hheld hp ha hq
  have hqa : q.addr = true := by
    by_contra hn
    have := (h.root _ q hq hqk).2 (by simpa using hn)
    simp [hqf] at this
  have hne : col ≠ cur := by
    rintro rfl
    obtain rfl := Option.some.inj (hp.symm.trans hpc)
    simp [hpk, Ref.kind] at hpck
  have hnec : col ≠ p.client := by
    rintro hc
    obtain rfl := Option.some.inj (hq.symm.trans (hc ▸ hpc))
    simp [hqk] at hpck
  have hcc : cur ≠ p.client := by
    rintro hc
    obtain rfl := Option.some.inj (hq.symm.trans (hc ▸ hp))
    simp [hqk, Ref.kind] at hpk
  -- keep the variable of the iterator and drop all others
  obtain ⟨m, hm⟩ := List.getElem?_of_mem href
  have hstep : step s (.disconnect k) = { s with
      heap := s.heap.set col { pc with addr := false, prot := none } } := by
    simp [step, Handles.disconnect, hk, finCollection, finalize, hpc, hpca, modify_eq_set hpc]
  obtain ⟨refs, hdrops, hrefs⟩ := run_drops ((List.range s.refs.length).filter (· ≠ m))
    (step s (.disconnect k))
  rw [hstep] at hdrops hrefs
  obtain ⟨hmem, honly⟩ := mem_refs_of_drops hm hrefs
  refine ⟨((List.range s.refs.length).filter (· ≠ m)).map .drop ++
    [.collect, .runPendingFinalizers], ?_⟩
  rw [run_cons, run_append, hstep, hdrops]
  refine unsafe_after_gc (c := cur) (p := p) (q := q) ?_ ?_ ?_ hpk ha hpf ?_ hqk
    (hqself.mp hqk) hqa hqf ?_
  · intro r hr
    obtain ⟨ref, hr', rfl⟩ := mem_roots.mp hr
    rw [honly ref hr', Ref.ptr]
  · exact mem_roots.mpr ⟨_, hmem, rfl⟩
  · rw [getElem?_set_of hpc, if_neg hne, hp]
  · rw [getElem?_set_of hpc, if_neg hnec, hq]
  · intro i hi
    have hchain : i = cur ∨ i = col := by
      refine Keeps.of_closed (P := fun i => i = cur ∨ i = col) (.inl rfl) (fun a b hab hb => ?_) hi
      obtain ⟨x, hx, hxb⟩ := protOf_eq_some.mp hb
      rw [getElem?_set_of hpc] at hx
      rcases hab with rfl | rfl
      · rw [if_neg hne, hp] at hx
        obtain rfl := Option.some.inj hx
        exact .inr (Option.some.inj (hxb.symm.trans hprot))
      · rw [if_pos rfl] at hx
        obtain rfl := Option.some.inj hx
        simp at hxb
    rcases hchain with rfl | rfl
    · exact hcc
    · exact hnec

end Steps

end Mongolite.Handles
