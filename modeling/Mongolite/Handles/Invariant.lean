import Mongolite.Handles.Session

/-! # The ownership invariant of a session

Every live handle has a client that is still to be finalized, and is itself ready
as soon as that client is. What an R variable reaches is never ready, and a live
cursor among it protects a live collection of the same client.
-/

namespace Mongolite.Handles

variable {P : Type} {s s' : Session P} {i j c : ℕ} {p p' q : ExternalPtr}

def Held (s : Session P) (i : ℕ) : Prop := Reachable (protOf s) (roots s) i

/-- What holds of a pointer that some R variable reaches. -/
def Sound (s : Session P) (i : ℕ) : Prop :=
  ∃ p, s.heap[i]? = some p ∧ p.finalizer = .registered ∧
    (p.kind = .cursor → p.addr = true → ∃ j q, p.prot = some j ∧ s.heap[j]? = some q ∧
      q.kind = .collection ∧ q.addr = true ∧ q.client = p.client)

structure Inv (s : Session P) : Prop where
  client : ∀ (i : ℕ) (p : ExternalPtr), s.heap[i]? = some p →
    ∃ q, s.heap[p.client]? = some q ∧ q.kind = .client ∧ p.client ≤ i ∧
      (p.kind = .client ↔ p.client = i)
  prot : ∀ (i : ℕ) (p : ExternalPtr) (j : ℕ), s.heap[i]? = some p → p.prot = some j →
    j < i ∧ ∃ q, s.heap[j]? = some q ∧ q.kind ≠ .cursor
  null : ∀ (i : ℕ) (p : ExternalPtr), s.heap[i]? = some p → p.finalizer = .done → p.addr = false
  root : ∀ (c : ℕ) (q : ExternalPtr), s.heap[c]? = some q → q.kind = .client →
    q.prot = none ∧ (q.addr = false → q.finalizer = .done)
  destroyed : ∀ c ∈ s.destroyed, ∃ q, s.heap[c]? = some q ∧ q.addr = false
  linked : ∀ (i : ℕ) (p : ExternalPtr), s.heap[i]? = some p → p.addr = true →
    p.kind = .collection ∨ p.kind = .gridfs → p.prot = some p.client
  owner : ∀ (i : ℕ) (p q : ExternalPtr), s.heap[i]? = some p → p.addr = true →
    s.heap[p.client]? = some q →
    q.finalizer ≠ .done ∧ (q.finalizer = .ready → p.finalizer = .ready)
  held : ∀ i, Held s i → Sound s i
  refs : ∀ r, some r ∈ s.refs → ∃ p, s.heap[r.ptr]? = some p ∧ p.kind = r.kind
  pool : ∀ params c, s.pool params = some (some c) →
    ∃ q, s.heap[c]? = some q ∧ q.kind = .client ∧ q.finalizer ≠ .done
  faults : s.faults = []

theorem protOf_eq (h : s.heap[i]? = some p) : protOf s i = p.prot := by simp [protOf, h]

theorem protOf_eq_some : protOf s i = some j ↔ ∃ p, s.heap[i]? = some p ∧ p.prot = some j := by
  simp [protOf, Option.bind_eq_some_iff]

theorem mem_roots : i ∈ roots s ↔ ∃ r, some r ∈ s.refs ∧ r.ptr = i := by
  simp [roots, List.mem_filterMap]

theorem getElem?_set_of {l : List ExternalPtr} (h : l[i]? = some p) (j : ℕ) :
    (l.set i p')[j]? = if i = j then some p' else l[j]? := by
  have hi : i < l.length := (List.getElem?_eq_some_iff.mp h).1
  rw [List.getElem?_set]
  by_cases hij : i = j
  · subst hij
    simp [hi]
  · simp [hij]

theorem Inv.start : Inv (Session.start : Session P) where
  client := by simp [Session.start]
  prot := by simp [Session.start]
  null := by simp [Session.start]
  root := by simp [Session.start]
  destroyed := by simp [Session.start]
  linked := by simp [Session.start]
  owner := by simp [Session.start]
  held := by
    rintro i ⟨r, hr, -⟩
    simp [roots, Session.start] at hr
  refs := by simp [Session.start]
  pool := by simp [Session.start]
  faults := rfl

theorem Inv.ownsOlder (h : Inv s) : OwnsOlder (protOf s) := by
  intro i j hij
  obtain ⟨p, hp, hj⟩ := protOf_eq_some.mp hij
  exact (h.prot i p j hp hj).1

theorem Inv.undestroyed (h : Inv s) (hp : s.heap[i]? = some p) (ha : p.addr = true) :
    p.client ∉ s.destroyed := by
  intro hd
  obtain ⟨q, hq, hk, -⟩ := h.client i p hp
  obtain ⟨q', hq', hn⟩ := h.destroyed _ hd
  obtain rfl : q = q' := Option.some.inj (hq.symm.trans hq')
  exact (h.owner i p q hp ha hq).1 ((h.root _ q hq hk).2 hn)

theorem Inv.safe (h : Inv s) : Safe s :=
  ⟨fun _ _ hp _ ha => h.undestroyed hp ha, h.faults⟩

theorem Inv.client_held (h : Inv s) (hi : Held s i) (hp : s.heap[i]? = some p)
    (ha : p.addr = true) : Held s p.client := by
  cases hk : p.kind with
  | client =>
    obtain ⟨-, -, -, -, hc⟩ := h.client i p hp
    rwa [hc.mp hk]
  | collection => exact hi.next ((protOf_eq hp).trans (h.linked i p hp ha (.inl hk)))
  | gridfs => exact hi.next ((protOf_eq hp).trans (h.linked i p hp ha (.inr hk)))
  | cursor =>
    obtain ⟨p', hp', -, hc⟩ := h.held i hi
    obtain rfl : p = p' := Option.some.inj (hp.symm.trans hp')
    obtain ⟨j, q, hj, hq, hqk, hqa, hqc⟩ := hc hk ha
    have hheld : Held s j := hi.next ((protOf_eq hp).trans hj)
    rw [← hqc]
    exact hheld.next ((protOf_eq hq).trans (h.linked j q hq hqa (.inl hqk)))

theorem Inv.client_registered (h : Inv s) (hi : Held s i) (hp : s.heap[i]? = some p)
    (ha : p.addr = true) (hq : s.heap[p.client]? = some q) : q.finalizer = .registered := by
  obtain ⟨q', hq', hf, -⟩ := h.held _ (h.client_held hi hp ha)
  obtain rfl : q = q' := Option.some.inj (hq.symm.trans hq')
  exact hf

theorem Inv.held_cursor (h : Inv s) (hi : Held s i) (hp : s.heap[i]? = some p)
    (hk : p.kind = .cursor) : some (.iterator i) ∈ s.refs := by
  obtain ⟨r, hr, hri⟩ := hi
  rcases Relation.ReflTransGen.cases_tail hri with rfl | ⟨j, -, hj⟩
  · obtain ⟨ref, href, rfl⟩ := mem_roots.mp hr
    obtain ⟨p', hp', hk'⟩ := h.refs ref href
    obtain rfl : p = p' := Option.some.inj (hp.symm.trans hp')
    rw [hk] at hk'
    cases ref with
    | iterator cur => exact href
    | mongo params col => simp [Ref.kind] at hk'
    | gridfs params fs => simp [Ref.kind] at hk'
  · obtain ⟨p', hp', hpj⟩ := protOf_eq_some.mp hj
    obtain ⟨-, q, hq, hqk⟩ := h.prot j p' i hp' hpj
    obtain rfl : p = q := Option.some.inj (hp.symm.trans hq)
    exact absurd hk hqk

theorem Inv.touchClient (h : Inv s) (hp : s.heap[i]? = some p) (ha : p.addr = true) :
    touchClient p.client s = s := by
  rw [Handles.touchClient, if_neg (h.undestroyed hp ha)]

/-- `s'` is `s` after the pointer `i` was cleared: by hand, or by its finalizer when no pointer
registered later is ready. -/
structure Cleared (s s' : Session P) (i : ℕ) (p p' : ExternalPtr) : Prop where
  before : s.heap[i]? = some p
  heap : s'.heap = s.heap.set i p'
  kind : p'.kind = p.kind
  client : p'.client = p.client
  addr : p'.addr = false
  prot : p'.prot = none ∨ p'.prot = p.prot
  refs : s'.refs = s.refs
  faults : s'.faults = s.faults
  destroyed : ∀ c ∈ s'.destroyed, c ∈ s.destroyed ∨ c = i
  pool : ∀ params c, s'.pool params = some (some c) →
    s.pool params = some (some c) ∧ (p'.finalizer = .done → c ≠ i)
  finalizer : p'.finalizer = p.finalizer ∧ p.kind ≠ .client ∨
    p'.finalizer = .done ∧ p.finalizer = .ready ∧ ∀ j, isReady s j → j ≤ i

theorem Cleared.get (h : Cleared s s' i p p') (j : ℕ) :
    s'.heap[j]? = if i = j then some p' else s.heap[j]? := by
  rw [h.heap, getElem?_set_of h.before]

theorem Cleared.cases (h : Cleared s s' i p p') (hq : s'.heap[j]? = some q) :
    i = j ∧ q = p' ∨ i ≠ j ∧ s.heap[j]? = some q := by
  rw [h.get] at hq
  by_cases hij : i = j
  · exact .inl ⟨hij, by simpa [hij] using hq.symm⟩
  · exact .inr ⟨hij, by simpa [hij] using hq⟩

theorem Cleared.exists (h : Cleared s s' i p p') (hq : s.heap[j]? = some q) :
    ∃ q', s'.heap[j]? = some q' ∧ q'.kind = q.kind := by
  rw [h.get]
  by_cases hij : i = j
  · subst hij
    obtain rfl : p = q := Option.some.inj (h.before.symm.trans hq)
    exact ⟨p', by simp, h.kind⟩
  · exact ⟨q, by simpa [hij] using hq, rfl⟩

theorem Cleared.protOf (h : Cleared s s' i p p') (hj : protOf s' j = some c) :
    protOf s j = some c := by
  obtain ⟨q, hq, hc⟩ := protOf_eq_some.mp hj
  rcases h.cases hq with ⟨rfl, rfl⟩ | ⟨-, hq'⟩
  · rcases h.prot with hn | hs
    · simp [hn] at hc
    · exact protOf_eq_some.mpr ⟨p, h.before, hs ▸ hc⟩
  · exact protOf_eq_some.mpr ⟨q, hq', hc⟩

theorem Cleared.held (h : Cleared s s' i p p') (hj : Held s' j) : Held s j := by
  refine Reachable.mono (fun _ _ => h.protOf) (fun r hr => .root ?_) hj
  simpa [roots, h.refs] using hr

theorem Cleared.sound (h : Cleared s s' i p p') (hs : Sound s j)
    (hcur : ∀ q, s.heap[j]? = some q → q.kind = .cursor → q.addr = true → q.prot ≠ some i) :
    Sound s' j := by
  obtain ⟨q, hq, hf, hc⟩ := hs
  by_cases hij : i = j
  · subst hij
    obtain rfl : p = q := Option.some.inj (h.before.symm.trans hq)
    refine ⟨p', by rw [h.get, if_pos rfl], ?_, by simp [h.addr]⟩
    rcases h.finalizer with ⟨hf', -⟩ | ⟨-, hr, -⟩
    · rw [hf', hf]
    · simp [hf] at hr
  · refine ⟨q, by rw [h.get, if_neg hij, hq], hf, fun hk hqa => ?_⟩
    obtain ⟨b, q', hb, hq', hrest⟩ := hc hk hqa
    have hne : i ≠ b := by
      rintro rfl
      exact hcur q hq hk hqa hb
    exact ⟨b, q', hb, by rw [h.get, if_neg hne, hq'], hrest⟩

/-- Clearing a pointer keeps the invariant unless it cuts off a live cursor that is held. -/
theorem Inv.clear (h : Inv s) (hs : Cleared s s' i p p')
    (hcur : ∀ (j : ℕ) (q : ExternalPtr), Held s j → s.heap[j]? = some q → q.kind = .cursor →
      q.addr = true → q.prot ≠ some i) : Inv s' := by
  constructor
  case client =>
    intro a q hq
    obtain ⟨q₀, hq₀, hk, hc⟩ : ∃ q₀, s.heap[a]? = some q₀ ∧ q₀.kind = q.kind ∧
        q₀.client = q.client := by
      rcases hs.cases hq with ⟨rfl, rfl⟩ | ⟨-, hq'⟩
      · exact ⟨p, hs.before, hs.kind.symm, hs.client.symm⟩
      · exact ⟨q, hq', rfl, rfl⟩
    obtain ⟨q₁, hq₁, hk₁, hle, hiff⟩ := h.client a q₀ hq₀
    obtain ⟨q₂, hq₂, hk₂⟩ := hs.exists hq₁
    rw [hk, hc] at hiff
    exact ⟨q₂, hc ▸ hq₂, hk₂.trans hk₁, hc ▸ hle, hiff⟩
  case prot =>
    intro a q b hq hb
    obtain ⟨q₁, hq₁, hb₁⟩ := protOf_eq_some.mp (hs.protOf (protOf_eq_some.mpr ⟨q, hq, hb⟩))
    obtain ⟨hlt, q₂, hq₂, hk⟩ := h.prot a q₁ b hq₁ hb₁
    obtain ⟨q₃, hq₃, hk₃⟩ := hs.exists hq₂
    exact ⟨hlt, q₃, hq₃, hk₃ ▸ hk⟩
  case null =>
    intro a q hq hd
    rcases hs.cases hq with ⟨rfl, rfl⟩ | ⟨-, hq'⟩
    · exact hs.addr
    · exact h.null a q hq' hd
  case root =>
    intro a q hq hk
    rcases hs.cases hq with ⟨rfl, rfl⟩ | ⟨-, hq'⟩
    · have hpk : p.kind = .client := hs.kind ▸ hk
      constructor
      · exact hs.prot.elim id fun hprot => hprot.trans (h.root _ p hs.before hpk).1
      · rcases hs.finalizer with ⟨-, hnc⟩ | ⟨hd, -, -⟩
        · exact absurd hpk hnc
        · exact fun _ => hd
    · exact h.root a q hq' hk
  case destroyed =>
    intro a ha
    rcases hs.destroyed a ha with hd | rfl
    · obtain ⟨q, hq, hn⟩ := h.destroyed a hd
      by_cases hia : i = a
      · exact ⟨p', by rw [hs.get, if_pos hia], hs.addr⟩
      · exact ⟨q, by rw [hs.get, if_neg hia, hq], hn⟩
    · exact ⟨p', by rw [hs.get, if_pos rfl], hs.addr⟩
  case linked =>
    intro a q hq hqa hqk
    rcases hs.cases hq with ⟨rfl, rfl⟩ | ⟨-, hq'⟩
    · simp [hs.addr] at hqa
    · exact h.linked a q hq' hqa hqk
  case owner =>
    intro a q q' hq hqa hq'
    rcases hs.cases hq with ⟨rfl, rfl⟩ | ⟨hia, hq₀⟩
    · simp [hs.addr] at hqa
    rcases hs.cases hq' with ⟨hc, rfl⟩ | ⟨-, hq₁⟩
    · have hown := h.owner a q p hq₀ hqa (hc ▸ hs.before)
      rcases hs.finalizer with ⟨hf, -⟩ | ⟨-, hr, hmax⟩
      · rwa [hf]
      · -- a live handle of the client would be ready too, and it is registered after the client
        obtain ⟨-, -, -, hle, -⟩ := h.client a q hq₀
        have hready : isReady s a := by simp [isReady, hq₀, hown.2 hr]
        have := hmax a hready
        omega
    · exact h.owner a q q' hq₀ hqa hq₁
  case held =>
    intro a ha
    exact hs.sound (h.held a (hs.held ha)) fun q => hcur a q (hs.held ha)
  case refs =>
    intro r hr
    obtain ⟨q, hq, hk⟩ := h.refs r (hs.refs ▸ hr)
    obtain ⟨q', hq', hk'⟩ := hs.exists hq
    exact ⟨q', hq', hk'.trans hk⟩
  case pool =>
    intro params a ha
    obtain ⟨hold, hne⟩ := hs.pool params a ha
    obtain ⟨q, hq, hk, hf⟩ := h.pool params a hold
    by_cases hia : i = a
    · subst hia
      obtain rfl : p = q := Option.some.inj (hs.before.symm.trans hq)
      exact ⟨p', by rw [hs.get, if_pos rfl], hs.kind.trans hk, fun hd => hne hd rfl⟩
    · exact ⟨q, by rw [hs.get, if_neg hia, hq], hk, hf⟩
  case faults => rw [hs.faults, h.faults]

end Mongolite.Handles
