import Mongolite.Handles.Collection

/-! # Making and binding handles

A new pointer is made from a live one and protects it, so that everything it
reaches is sound; R variables can then be bound to it, and dropped.
-/

namespace Mongolite.Handles

variable {P : Type} {s s' : Session P} {i j k c : ℕ} {p q : ExternalPtr}

theorem getElem?_makeExternalPtr {kind : Kind} {prot : Option ℕ} {j : ℕ} {q : ExternalPtr}
    (hq : s.heap[j]? = some q) : (makeExternalPtr kind c prot s).heap[j]? = some q := by
  have hlt : j < s.heap.length := (List.getElem?_eq_some_iff.mp hq).1
  simpa [makeExternalPtr, List.getElem?_append_left hlt] using hq

theorem makeExternalPtr_cases {kind : Kind} {prot : Option ℕ} {j : ℕ} {q : ExternalPtr}
    (hq : (makeExternalPtr kind c prot s).heap[j]? = some q) :
    s.heap[j]? = some q ∨ j = s.heap.length ∧ q = ⟨kind, c, true, prot, .registered⟩ := by
  rcases Nat.lt_trichotomy j s.heap.length with hlt | rfl | hgt
  · exact .inl (by simpa [makeExternalPtr, List.getElem?_append_left hlt] using hq)
  · exact .inr ⟨rfl, by simpa [makeExternalPtr] using hq.symm⟩
  · rw [makeExternalPtr, List.getElem?_eq_none (by simpa using Nat.succ_le_of_lt hgt)] at hq
    simp at hq

theorem Inv.held_makeExternalPtr (h : Inv s) {kind : Kind} {prot : Option ℕ} {j : ℕ}
    (hj : Held (Handles.makeExternalPtr kind c prot s) j) : Held s j := by
  obtain ⟨r, hr, hrj⟩ := hj
  have hr' : Held s r := .root hr
  refine Keeps.of_closed (P := Held s) hr' (fun a b ha hab => ?_) hrj
  obtain ⟨p, hp, -⟩ := h.held a ha
  obtain ⟨p', hp', hb⟩ := protOf_eq_some.mp hab
  obtain rfl : p = p' := Option.some.inj ((getElem?_makeExternalPtr hp).symm.trans hp')
  exact ha.next (protOf_eq_some.mpr ⟨p, hp, hb⟩)

theorem Inv.makeExternalPtr (h : Inv s) {kind : Kind} {prot : Option ℕ}
    (hclient : kind = .client ∧ c = s.heap.length ∧ prot = none ∨
      kind ≠ .client ∧ ∃ q, s.heap[c]? = some q ∧ q.kind = .client ∧ q.finalizer = .registered)
    (hprot : ∀ j, prot = some j → ∃ q, s.heap[j]? = some q ∧ q.kind ≠ .cursor)
    (hlink : kind = .collection ∨ kind = .gridfs → prot = some c) :
    Inv (makeExternalPtr kind c prot s) := by
  constructor
  case client =>
    intro i p hp
    rcases makeExternalPtr_cases hp with hp' | ⟨rfl, rfl⟩
    · obtain ⟨q, hq, hrest⟩ := h.client i p hp'
      exact ⟨q, getElem?_makeExternalPtr hq, hrest⟩
    · rcases hclient with ⟨rfl, rfl, rfl⟩ | ⟨hk, q, hq, hqk, -⟩
      · exact ⟨_, hp, rfl, Nat.le_refl _, by simp⟩
      · have hlt : c < s.heap.length := (List.getElem?_eq_some_iff.mp hq).1
        exact ⟨q, getElem?_makeExternalPtr hq, hqk, Nat.le_of_lt hlt,
          by simp [hk, Nat.ne_of_lt hlt]⟩
  case prot =>
    intro i p j hp hj
    rcases makeExternalPtr_cases hp with hp' | ⟨rfl, rfl⟩
    · obtain ⟨hlt, q, hq, hk⟩ := h.prot i p j hp' hj
      exact ⟨hlt, q, getElem?_makeExternalPtr hq, hk⟩
    · obtain ⟨q, hq, hk⟩ := hprot j hj
      exact ⟨(List.getElem?_eq_some_iff.mp hq).1, q, getElem?_makeExternalPtr hq, hk⟩
  case null =>
    intro i p hp hd
    rcases makeExternalPtr_cases hp with hp' | ⟨-, rfl⟩
    · exact h.null i p hp' hd
    · simp at hd
  case root =>
    intro i p hp hk
    rcases makeExternalPtr_cases hp with hp' | ⟨-, rfl⟩
    · exact h.root i p hp' hk
    · rcases hclient with ⟨-, -, rfl⟩ | ⟨hnc, -⟩
      · simp
      · exact absurd hk hnc
  case destroyed =>
    intro d hd
    obtain ⟨q, hq, hn⟩ := h.destroyed d hd
    exact ⟨q, getElem?_makeExternalPtr hq, hn⟩
  case linked =>
    intro i p hp ha hk
    rcases makeExternalPtr_cases hp with hp' | ⟨-, rfl⟩
    · exact h.linked i p hp' ha hk
    · exact hlink hk
  case owner =>
    intro i p q hp ha hq
    rcases makeExternalPtr_cases hp with hp' | ⟨hi, rfl⟩
    · obtain ⟨q', hq', -⟩ := h.client i p hp'
      obtain rfl : q' = q := Option.some.inj ((getElem?_makeExternalPtr hq').symm.trans hq)
      exact h.owner i p q' hp' ha hq'
    · rcases hclient with ⟨rfl, rfl, rfl⟩ | ⟨-, q', hq', -, hf⟩
      · rw [hi] at hp
        obtain rfl := Option.some.inj (hp.symm.trans hq)
        simp
      · obtain rfl : q' = q := Option.some.inj ((getElem?_makeExternalPtr hq').symm.trans hq)
        simp [hf]
  case held =>
    intro i hi
    obtain ⟨p, hp, hf, hc⟩ := h.held i (h.held_makeExternalPtr hi)
    refine ⟨p, getElem?_makeExternalPtr hp, hf, fun hk ha => ?_⟩
    obtain ⟨j, q, hj, hq, hrest⟩ := hc hk ha
    exact ⟨j, q, hj, getElem?_makeExternalPtr hq, hrest⟩
  case refs =>
    intro r hr
    obtain ⟨p, hp, hk⟩ := h.refs r hr
    exact ⟨p, getElem?_makeExternalPtr hp, hk⟩
  case pool =>
    intro params d hd
    obtain ⟨q, hq, hrest⟩ := h.pool params d hd
    exact ⟨q, getElem?_makeExternalPtr hq, hrest⟩
  case faults => exact h.faults

theorem Inv.withRefs (h : Inv s) {refs : List (Option (Ref P))}
    (hrefs : ∀ r, some r ∈ refs → some r ∈ s.refs ∨
      (∃ p, s.heap[r.ptr]? = some p ∧ p.kind = r.kind) ∧
        ∀ i, Keeps (protOf s) r.ptr i → Sound s i) :
    Inv { s with refs := refs } := by
  refine { h with held := ?_, refs := ?_ }
  · rintro i ⟨r, hr, hri⟩
    obtain ⟨ref, href, rfl⟩ := mem_roots.mp hr
    rcases hrefs ref href with hold | ⟨-, hsound⟩
    · exact h.held i ⟨_, mem_roots.mpr ⟨ref, hold, rfl⟩, hri⟩
    · exact hsound i hri
  · intro r hr
    rcases hrefs r hr with hold | ⟨hp, -⟩
    · exact h.refs r hold
    · exact hp

/-- A handle that can be made from: live, registered, and with a registered client. -/
def Usable (s : Session P) (kind : Kind) (i : ℕ) : Prop :=
  ∃ p, s.heap[i]? = some p ∧ p.kind = kind ∧ p.addr = true ∧ p.finalizer = .registered ∧
    ∃ q, s.heap[p.client]? = some q ∧ q.finalizer = .registered

theorem Inv.usable_of_held (h : Inv s) (hi : Held s i) (hp : s.heap[i]? = some p)
    (ha : p.addr = true) : Usable s p.kind i := by
  obtain ⟨q, hq, -⟩ := h.client i p hp
  obtain ⟨p', hp', hf, -⟩ := h.held i hi
  obtain rfl : p = p' := Option.some.inj (hp.symm.trans hp')
  exact ⟨p, hp, rfl, ha, hf, q, hq, h.client_registered hi hp ha hq⟩

/-- An object made from a usable one, and everything its pointer protects, is sound. -/
theorem Inv.makeFrom (h : Inv s) {kind source : Kind} (hi : Usable s source i)
    (hk : kind = .cursor ∧ source = .collection ∨
      (kind = .collection ∨ kind = .gridfs) ∧ source = .client) :
    ∃ s', makeFrom kind i s = (s', some s.heap.length) ∧ Inv s' ∧ s'.refs = s.refs ∧
      (∃ p, s'.heap[s.heap.length]? = some p ∧ p.kind = kind) ∧
      ∀ j, Keeps (protOf s') s.heap.length j → Sound s' j := by
  obtain ⟨p, hp, hpk, ha, hf, q, hq, hqf⟩ := hi
  obtain ⟨q', hq', hqk, -, hself⟩ := h.client i p hp
  obtain rfl : q = q' := Option.some.inj (hq.symm.trans hq')
  have hlt : i < s.heap.length := (List.getElem?_eq_some_iff.mp hp).1
  have hltc : p.client < s.heap.length := (List.getElem?_eq_some_iff.mp hq).1
  have hnew : (Handles.makeExternalPtr kind p.client (some i) s).heap[s.heap.length]? =
      some ⟨kind, p.client, true, some i, .registered⟩ := by simp [Handles.makeExternalPtr]
  have hget : ∀ {a : ℕ}, a < s.heap.length →
      (Handles.makeExternalPtr kind p.client (some i) s).heap[a]? = s.heap[a]? := fun hl => by
    simp [Handles.makeExternalPtr, List.getElem?_append_left hl]
  have hpcur : p.kind ≠ .cursor := by
    rcases hk with ⟨-, rfl⟩ | ⟨-, rfl⟩ <;> simp [hpk]
  have hprot : ∀ b, p.prot = some b → b = p.client := by
    intro b hb
    rcases hk with ⟨-, rfl⟩ | ⟨-, rfl⟩
    · rw [h.linked i p hp ha (.inl hpk)] at hb
      exact (Option.some.inj hb).symm
    · simp [(h.root i p hp hpk).1] at hb
  have hchain : ∀ j,
      Keeps (protOf (Handles.makeExternalPtr kind p.client (some i) s)) s.heap.length j →
      j = s.heap.length ∨ j = i ∨ j = p.client := by
    intro j hj
    refine Keeps.of_closed (P := fun j => j = s.heap.length ∨ j = i ∨ j = p.client) (.inl rfl)
      (fun a b hab hb => ?_) hj
    obtain ⟨r, hr, hrb⟩ := protOf_eq_some.mp hb
    rcases hab with rfl | rfl | rfl
    · obtain rfl := Option.some.inj (hnew.symm.trans hr)
      exact .inr (.inl (Option.some.inj hrb).symm)
    · obtain rfl := Option.some.inj (hp.symm.trans ((hget hlt).symm.trans hr))
      exact .inr (.inr (hprot b hrb))
    · obtain rfl := Option.some.inj (hq.symm.trans ((hget hltc).symm.trans hr))
      simp [(h.root _ q hq hqk).1] at hrb
  refine ⟨Handles.makeExternalPtr kind p.client (some i) s, by simp [Handles.makeFrom, hp, ha],
    h.makeExternalPtr (.inr ⟨?_, q, hq, hqk, hqf⟩) ?_ ?_, rfl, ⟨_, hnew, rfl⟩, fun j hj => ?_⟩
  · rcases hk with ⟨rfl, -⟩ | ⟨rfl | rfl, -⟩ <;> simp
  · rintro j ⟨⟩
    exact ⟨p, hp, hpcur⟩
  · rcases hk with ⟨rfl, -⟩ | ⟨-, rfl⟩
    · simp
    · rw [hself.mp hpk]
      exact fun _ => rfl
  · rcases hchain j hj with rfl | rfl | rfl
    · refine ⟨_, hnew, rfl, fun hcur _ => ?_⟩
      rcases hk with ⟨-, rfl⟩ | ⟨hcol, -⟩
      · exact ⟨i, p, rfl, by rw [hget hlt, hp], hpk, ha, rfl⟩
      · rcases hcol with rfl | rfl <;> simp at hcur
    · exact ⟨p, by rw [hget hlt, hp], hf, fun hcur => absurd hcur hpcur⟩
    · exact ⟨q, by rw [hget hltc, hq], hqf, fun hcur => by simp [hqk] at hcur⟩

theorem mem_set_of {r r' : Ref P} {refs : List (Option (Ref P))}
    (h : some r' ∈ refs.set k (some r)) : some r' ∈ refs ∨ r' = r :=
  (List.mem_or_eq_of_mem_set h).imp_right Option.some.inj

theorem mem_refs {r : Ref P} (h : s.refs[k]?.join = some r) : some r ∈ s.refs :=
  List.mem_of_getElem? (Option.join_eq_some_iff.mp h)

theorem Inv.bind (h : Inv s) {refs : List (Option (Ref P))} {r : Ref P}
    (hrefs : ∀ r', some r' ∈ refs → some r' ∈ s.refs ∨ r' = r)
    (hp : ∃ p, s.heap[r.ptr]? = some p ∧ p.kind = r.kind)
    (hsound : ∀ j, Keeps (protOf s) r.ptr j → Sound s j) : Inv { s with refs := refs } :=
  h.withRefs fun r' hr' => (hrefs r' hr').imp_right fun he => by
    subst he
    exact ⟨hp, hsound⟩

end Mongolite.Handles
