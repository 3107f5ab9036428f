import Mongolite.Pool.NewClient

/-! # Sharing clients

The key of a weak reference in the pool is the one client for its parameters
that anything may refer to. A client that waits for its finalizer is never
handed out, because `get_weakref` runs the finalizers before it looks.
-/

namespace Mongolite

variable {P : Type} {s s' : PoolState P} {p q : P} {c c' : ℕ}

/-- What holds between any two steps: whatever is referenced is in the pool under its parameters,
except for a client that was just created; when there is none to be found, none is referenced. -/
structure Pooled (s : PoolState P) : Prop where
  sound : s.heap.Sound
  fresh : ∀ c, s.heap.made ≤ c → s.params c = none
  key : ∀ p c, s.pool p = some (some c) → s.params c = some p ∧ s.heap.finalized c = false
  pooled : ∀ p c, s.params c = some p → 0 < s.heap.refs c →
    s.pool p = some (some c) ∨ s.frame = .created p c
  found : ∀ p c, s.frame = .looked p (some c) → s.params c = some p ∧ 0 < s.heap.refs c
  missing : ∀ p, s.frame = .looked p none → ∀ c, s.params c = some p → s.heap.refs c = 0
  created : ∀ p c, s.frame = .created p c → s.params c = some p ∧ s.heap.refs c = 1 ∧
    ∀ c', s.params c' = some p → 0 < s.heap.refs c' → c' = c
  returns : ∀ p c, (p, c) ∈ s.returns → s.params c = some p

theorem Pooled.empty : Pooled (emptyPool : PoolState P) where
  sound := .empty
  fresh := by simp [emptyPool]
  key := by simp [emptyPool]
  pooled := by simp [emptyPool]
  found := by simp [emptyPool]
  missing := by simp [emptyPool]
  created := by simp [emptyPool]
  returns := by simp [emptyPool]

theorem Pooled.of_refs (h : Pooled s) {g : Collector} (hsound : g.Sound)
    (hmade : g.made = s.heap.made) (hfinal : g.finalized = s.heap.finalized)
    (hrefs : ∀ c, 0 < g.refs c → 0 < s.heap.refs c)
    (hframe : ∀ c, s.frame.client = some c →
      0 < g.refs c ∧ (s.heap.refs c = 1 → g.refs c = 1)) :
    Pooled { s with heap := g } where
  sound := hsound
  fresh := hmade ▸ h.fresh
  key p c hkey := by
    rw [hfinal]
    exact h.key p c hkey
  pooled p c hp hc := h.pooled p c hp (hrefs c hc)
  found p c hf := ⟨(h.found p c hf).1, (hframe c (by rw [hf]; rfl)).1⟩
  missing p hf c hp := by
    by_contra hne
    have hpos := hrefs c (Nat.pos_of_ne_zero hne)
    exact absurd (h.missing p hf c hp) (Nat.pos_iff_ne_zero.mp hpos)
  created p c hf := by
    obtain ⟨hp, hone, honly⟩ := h.created p c hf
    exact ⟨hp, (hframe c (by rw [hf]; rfl)).2 hone, fun c' hp' hc' => honly c' hp' (hrefs c' hc')⟩
  returns := h.returns

theorem Pooled.runPendingFinalizers (h : Pooled s) : Pooled (runPendingFinalizers s) where
  sound := h.sound.finalize
  fresh := h.fresh
  key p c hkey := by
    obtain ⟨k, hk, hclear⟩ := Option.map_eq_some_iff.mp hkey
    obtain ⟨rfl, hready⟩ := Collector.clearKey_eq_some.mp hclear
    obtain ⟨hp, hfinal⟩ := h.key p c hk
    exact ⟨hp, by simp [Mongolite.runPendingFinalizers, Collector.finalize, hready, hfinal]⟩
  pooled p c hp hc := by
    obtain ⟨-, hready, -⟩ := h.sound.alive c hc
    refine (h.pooled p c hp hc).imp_left fun hpool => ?_
    exact Option.map_eq_some_iff.mpr ⟨some c, hpool, Collector.clearKey_eq_some.mpr ⟨rfl, hready⟩⟩
  found := h.found
  missing := h.missing
  created := h.created
  returns := h.returns

theorem Pooled.setFrame (h : Pooled s) (f : Frame P) (hs : ∀ p c, s.frame ≠ .created p c)
    (hf : ∀ p c, f ≠ .created p c)
    (hfound : ∀ p c, f = .looked p (some c) → s.params c = some p ∧ 0 < s.heap.refs c)
    (hmissing : ∀ p, f = .looked p none → ∀ c, s.params c = some p → s.heap.refs c = 0) :
    Pooled { s with frame := f } where
  sound := h.sound
  fresh := h.fresh
  key := h.key
  pooled p c hp hc := .inl ((h.pooled p c hp hc).resolve_right (hs p c))
  found := hfound
  missing := hmissing
  created p c hc := absurd hc (hf p c)
  returns := h.returns

theorem Pooled.idle (h : Pooled s) (hs : ∀ p c, s.frame ≠ .created p c) :
    Pooled { s with frame := .idle } :=
  h.setFrame .idle hs (by simp) (by simp) (by simp)

theorem Pooled.client_pos (h : Pooled s) (hc : s.frame.client = some c) : 0 < s.heap.refs c := by
  cases hf : s.frame with
  | idle => simp [hf, Frame.client] at hc
  | called p => simp [hf, Frame.client] at hc
  | looked p client =>
    obtain rfl : client = some c := by simpa [hf, Frame.client] using hc
    exact (h.found p c hf).2
  | created p c' =>
    obtain rfl : c' = c := by simpa [hf, Frame.client] using hc
    rw [(h.created p c' hf).2.1]
    exact Nat.one_pos

theorem heldOutside_pos_iff : 0 < s.heldOutside c ↔
    0 < s.heap.refs c ∧ (s.frame.client = some c → 1 < s.heap.refs c) := by
  rw [PoolState.heldOutside]
  split_ifs with h
  · simp only [h, true_imp_iff]
    omega
  · simp [h]

theorem Pooled.copy (h : Pooled s) (hc : 0 < s.heldOutside c) :
    Pooled { s with heap := s.heap.hold c } := by
  obtain ⟨hpos, hframe⟩ := heldOutside_pos_iff.mp hc
  obtain ⟨hlt, hready, hfinal⟩ := h.sound.alive c hpos
  refine h.of_refs (h.sound.hold hlt hready hfinal) rfl rfl (fun i hi => ?_) fun i hi => ?_
  · rw [Collector.refs_hold] at hi
    split_ifs at hi with heq
    · exact heq ▸ hpos
    · exact hi
  · rw [Collector.refs_hold]
    split_ifs with heq
    · have := hframe (heq ▸ hi)
      subst heq
      omega
    · exact ⟨h.client_pos hi, id⟩

theorem Pooled.release (h : Pooled s) (hc : 0 < s.heldOutside c) :
    Pooled { s with heap := s.heap.drop c } := by
  obtain ⟨hpos, hframe⟩ := heldOutside_pos_iff.mp hc
  refine h.of_refs (h.sound.drop c) rfl rfl (fun i hi => ?_) fun i hi => ?_
  · exact Nat.lt_of_lt_of_le hi (Collector.refs_drop_le _ _ _)
  · rw [Collector.refs_drop]
    split_ifs with heq
    · have := hframe (heq ▸ hi)
      subst heq
      omega
    · exact ⟨h.client_pos hi, id⟩

theorem Pooled.gc (h : Pooled s) (found : List ℕ) :
    Pooled { s with heap := s.heap.collect found } :=
  h.of_refs (h.sound.collect found) rfl rfl (fun _ hi => hi) fun _ hi => ⟨h.client_pos hi, id⟩

theorem Pooled.interrupt (h : Pooled s) (hc : s.frame.client = some c) :
    Pooled { s with frame := .idle, heap := s.heap.drop c } where
  sound := h.sound.drop c
  fresh := h.fresh
  key := h.key
  pooled p i hp hi := by
    have hle := Collector.refs_drop_le s.heap c i
    obtain hpool | hf := h.pooled p i hp (Nat.lt_of_lt_of_le hi hle)
    · exact .inl hpool
    · obtain rfl : i = c := by simpa [hf, Frame.client] using hc
      simp [Collector.refs_drop, (h.created p i hf).2.1] at hi
  found := by simp
  missing := by simp
  created := by simp
  returns := h.returns

theorem Pooled.getWeakref (h : Pooled s) (p : P) : Pooled (getWeakref p s).2 := by
  unfold Mongolite.getWeakref
  cases s.pool p with
  | none => exact h
  | some k => exact h.runPendingFinalizers

theorem getWeakref_frame (p : P) (s : PoolState P) :
    (getWeakref p s).2.frame = s.frame ∧ (getWeakref p s).2.returns = s.returns := by
  unfold getWeakref
  cases s.pool p <;> exact ⟨rfl, rfl⟩

/-- The value of the weak reference is its key after the finalizers have run. -/
theorem getWeakref_fst : (getWeakref p s).1 = ((getWeakref p s).2.pool p).join := by
  unfold getWeakref
  cases hpool : s.pool p with
  | none => simp [hpool]
  | some k => rfl

theorem getWeakref_ready (hc : (getWeakref p s).1 = some c) :
    (getWeakref p s).2.heap.ready c = false := by
  unfold getWeakref at hc ⊢
  cases hpool : s.pool p with
  | none => simp [hpool] at hc
  | some k => rfl

/-- A key that does not wait for its finalizer may be referenced again. -/
theorem Pooled.revive (h : Pooled s) (hs : ∀ p c, s.frame ≠ .created p c)
    (hkey : s.pool p = some (some c)) (hready : s.heap.ready c = false) :
    Pooled { s with frame := .looked p (some c), heap := s.heap.hold c } := by
  obtain ⟨hp, hfinal⟩ := h.key p c hkey
  have hlt : c < s.heap.made := by
    by_contra hge
    simp [h.fresh c (Nat.le_of_not_lt hge)] at hp
  constructor
  · exact h.sound.hold hlt hready hfinal
  · exact h.fresh
  · exact h.key
  · intro q i hq hi
    left
    rw [Collector.refs_hold] at hi
    split_ifs at hi with heq
    · subst heq
      obtain rfl : p = q := Option.some.inj (hp.symm.trans hq)
      exact hkey
    · exact (h.pooled q i hq hi).resolve_right (hs q i)
  · rintro q i ⟨⟩
    exact ⟨hp, by simp [Collector.refs_hold]⟩
  · simp
  · simp
  · exact h.returns

theorem Pooled.giveBack (h : Pooled s) (hf : s.frame = .looked p (some c)) :
    Pooled (returnClient p c s) where
  sound := h.sound
  fresh := h.fresh
  key := h.key
  pooled q i hq hi := .inl ((h.pooled q i hq hi).resolve_right (by simp [hf]))
  found := by simp [returnClient]
  missing := by simp [returnClient]
  created := by simp [returnClient]
  returns q i hmem := by
    rcases List.mem_append.mp hmem with hmem | hmem
    · exact h.returns q i hmem
    · obtain ⟨rfl, rfl⟩ : q = p ∧ i = c := by simpa using hmem
      exact (h.found q i hf).1

theorem Pooled.create (h : Pooled s) (hf : s.frame = .looked p none) (valid : Bool) :
    Pooled (mongoClientNew valid p s) := by
  have hs : ∀ q c, s.frame ≠ .created q c := by simp [hf]
  unfold mongoClientNew
  split_ifs
  · have hold : ∀ q i, i ≠ s.heap.made →
        (Function.update s.params s.heap.made (some p) i = some q ↔ s.params i = some q) := by
      intro q i hne
      rw [Function.update_of_ne hne]
    have hnew : s.params s.heap.made = none := h.fresh _ (Nat.le_refl _)
    constructor
    · exact h.sound.make
    · intro i hi
      change s.heap.made + 1 ≤ i at hi
      exact (Function.update_of_ne (by omega) _ _).trans (h.fresh i (by omega))
    · intro q i hkey
      obtain ⟨hq, hfinal⟩ := h.key q i hkey
      have hne : i ≠ s.heap.made := by
        rintro rfl
        simp [hnew] at hq
      exact ⟨(hold q i hne).mpr hq, hfinal⟩
    · intro q i hq hi
      by_cases hne : i = s.heap.made
      · subst hne
        obtain rfl : p = q := Option.some.inj
          ((Function.update_self s.heap.made (some p) s.params).symm.trans hq)
        exact .inr rfl
      · rw [Collector.refs_make, if_neg hne] at hi
        exact .inl ((h.pooled q i ((hold q i hne).mp hq) hi).resolve_right (hs q i))
    · simp
    · simp
    · rintro q i ⟨⟩
      refine ⟨Function.update_self .., by simp [Collector.refs_make], fun i hi hpos => ?_⟩
      by_contra hne
      rw [Collector.refs_make, if_neg hne] at hpos
      exact absurd (h.missing p hf i ((hold p i hne).mp hi)) (Nat.pos_iff_ne_zero.mp hpos)
    · intro q i hmem
      have hq := h.returns q i hmem
      have hne : i ≠ s.heap.made := by
        rintro rfl
        simp [hnew] at hq
      exact (hold q i hne).mpr hq
  · exact h.idle hs

theorem Pooled.unique (h : Pooled s) (hp : s.params c = some p) (hp' : s.params c' = some p)
    (hc : 0 < s.heap.refs c) (hc' : 0 < s.heap.refs c') : c = c' := by
  rcases h.pooled p c hp hc with hpool | hf
  · rcases h.pooled p c' hp' hc' with hpool' | hf'
    · simpa using hpool.symm.trans hpool'
    · exact (h.created p c' hf').2.2 c hp hc
  · exact ((h.created p c hf).2.2 c' hp' hc').symm

variable [DecidableEq P]

theorem Pooled.look (h : Pooled s) (hf : s.frame = .called p) (valid : Bool) :
    Pooled (advanceCall valid s) := by
  have h' := h.getWeakref p
  have hframe := (getWeakref_frame p s).1
  have hs : ∀ q c, (Mongolite.getWeakref p s).2.frame ≠ .created q c := by simp [hframe, hf]
  have hfst := @getWeakref_fst P s p
  rw [advanceCall, hf]
  simp only
  rcases hget : Mongolite.getWeakref p s with ⟨_ | c, s'⟩
  · rw [hget] at h' hs hfst
    refine h'.setFrame _ hs (by simp) (by simp) ?_
    rintro _ ⟨⟩ c hp
    by_contra hne
    rcases h'.pooled p c hp (Nat.pos_of_ne_zero hne) with hpool | hcreated
    · have hjoin : none = (some (some c) : Option (Option ℕ)).join := hfst.trans (congrArg _ hpool)
      cases hjoin
    · exact hs p c hcreated
  · have hready := getWeakref_ready (congrArg Prod.fst hget)
    rw [hget] at h' hs hfst hready
    exact h'.revive hs (Option.join_eq_some_iff.mp hfst.symm) hready

theorem Pooled.store (h : Pooled s) (hf : s.frame = .created p c) :
    Pooled (returnClient p c { s with pool := Function.update s.pool p (some (some c)) }) := by
  obtain ⟨hp, hone, honly⟩ := h.created p c hf
  obtain ⟨-, -, hfinal⟩ := h.sound.alive c (by omega)
  constructor
  · exact h.sound
  · exact h.fresh
  · intro q i hkey
    by_cases hq : q = p
    · subst hq
      obtain rfl : c = i := by
        simpa using (Function.update_self ..).symm.trans hkey
      exact ⟨hp, hfinal⟩
    · exact h.key q i ((Function.update_of_ne hq _ _).symm.trans hkey)
  · intro q i hi hpos
    left
    by_cases hq : q = p
    · subst hq
      rw [honly i hi hpos]
      exact Function.update_self ..
    · refine (Function.update_of_ne hq _ _).trans ((h.pooled q i hi hpos).resolve_right ?_)
      rw [hf]
      rintro ⟨⟩
      exact hq rfl
  · simp [returnClient]
  · simp [returnClient]
  · simp [returnClient]
  · intro q i hmem
    rcases List.mem_append.mp hmem with hmem | hmem
    · exact h.returns q i hmem
    · obtain ⟨rfl, rfl⟩ : q = p ∧ i = c := by simpa using hmem
      exact hp

theorem Pooled.advance_looked (h : Pooled s) (hf : s.frame = .looked p (some c)) (valid : Bool) :
    advanceCall valid s = returnClient p c s := by
  -- the second check never finds a destroyed client
  have halive : nullPtr s c = false := (h.sound.alive c (h.found p c hf).2).2.2
  simp [advanceCall, hf, halive]

theorem Pooled.advance (h : Pooled s) (valid : Bool) : Pooled (advanceCall valid s) := by
  cases hf : s.frame with
  | idle => simpa [advanceCall, hf] using h
  | called p => exact h.look hf valid
  | looked p client =>
    cases client with
    | none => simpa only [advanceCall, hf] using h.create hf valid
    | some c =>
      rw [h.advance_looked hf]
      exact h.giveBack hf
  | created p c => simpa only [advanceCall, hf] using h.store hf

theorem Pooled.step (h : Pooled s) (event : PoolEvent P) : Pooled (poolStep s event) := by
  cases event with
  | newClient p =>
    simp only [poolStep]
    split_ifs with hidle
    · exact h.setFrame _ (by simp [hidle]) (by simp) (by simp) (by simp)
    · exact h
  | advance valid => exact h.advance valid
  | interrupt =>
    simp only [poolStep]
    cases hc : s.frame.client with
    | some c => exact h.interrupt hc
    | none =>
      refine h.idle fun p c hf => ?_
      simp [hf, Frame.client] at hc
  | copy c =>
    simp only [poolStep]
    split_ifs with hc
    · exact h.copy hc
    · exact h
  | release c =>
    simp only [poolStep]
    split_ifs with hc
    · exact h.release hc
    · exact h
  | gc found => exact h.gc found
  | runFinalizers => exact h.runPendingFinalizers

/-! ## Whole calls -/

variable {before between after : List (PoolEvent P)} {valid valid' : Bool}

theorem quiet_step {event : PoolEvent P} (hquiet : event.isQuiet = true) (s : PoolState P) :
    (poolStep s event).frame = s.frame ∧ (poolStep s event).returns = s.returns ∧
      (poolStep s event).params = s.params := by
  cases event with
  | newClient | advance | interrupt => cases hquiet
  | copy | release =>
    simp only [poolStep]
    split_ifs <;> exact ⟨rfl, rfl, rfl⟩
  | gc | runFinalizers => exact ⟨rfl, rfl, rfl⟩

theorem quiet_run (hquiet : ∀ event ∈ before, event.isQuiet = true) (s : PoolState P) :
    (run poolStep s before).frame = s.frame ∧ (run poolStep s before).returns = s.returns ∧
      (run poolStep s before).params = s.params := by
  induction before generalizing s with
  | nil => exact ⟨rfl, rfl, rfl⟩
  | cons event before ih =>
    obtain ⟨hframe, hreturns, hparams⟩ := quiet_step (hquiet event List.mem_cons_self) s
    obtain ⟨hframe', hreturns', hparams'⟩ :=
      ih (fun e he => hquiet e (List.mem_cons_of_mem _ he)) (poolStep s event)
    exact ⟨hframe'.trans hframe, hreturns'.trans hreturns, hparams'.trans hparams⟩

theorem Pooled.run (h : Pooled s) (events : List (PoolEvent P)) :
    Pooled (run poolStep s events) :=
  run_invariant (fun _ event hs _ => hs.step event) h (meets_true poolStep s events)

theorem advance_called (hf : s.frame = .called p) (valid : Bool) :
    ∃ client, (advanceCall valid s).frame = .looked p client ∧
      (advanceCall valid s).returns = s.returns ∧ (advanceCall valid s).params = s.params := by
  have hkeeps := (getWeakref_frame p s).2
  have hparams : (getWeakref p s).2.params = s.params := by
    unfold getWeakref
    cases s.pool p <;> rfl
  rw [advanceCall, hf]
  simp only
  rcases hget : getWeakref p s with ⟨_ | c, s'⟩
  all_goals
    rw [hget] at hkeeps hparams
    exact ⟨_, rfl, hkeeps, hparams⟩

theorem Pooled.advance_held (h : Pooled s) (hf : s.frame = .called p) (hp : s.params c = some p)
    (hc : 0 < s.heap.refs c) (valid : Bool) :
    (advanceCall valid s).frame = .looked p (some c) := by
  have hpool : s.pool p = some (some c) := (h.pooled p c hp hc).resolve_right (by simp [hf])
  obtain ⟨-, hready, -⟩ := h.sound.alive c hc
  have hkey : s.heap.clearKey (some c) = some c := Collector.clearKey_eq_some.mpr ⟨rfl, hready⟩
  have hget : Mongolite.getWeakref p s = (some c, Mongolite.runPendingFinalizers s) := by
    simp [Mongolite.getWeakref, hpool, Mongolite.runPendingFinalizers, hkey]
  rw [advanceCall, hf]
  simp only [hget]

/-- Two steps return the client that is referenced when the call looks. -/
theorem Pooled.returns_held (h : Pooled s) (hf : s.frame = .called p)
    (hbefore : ∀ event ∈ before, event.isQuiet = true)
    (hbetween : ∀ event ∈ between, event.isQuiet = true) (hp : s.params c = some p)
    (hc : 0 < (Mongolite.run poolStep s before).heap.refs c) :
    (Mongolite.run poolStep s
      (before ++ .advance valid :: (between ++ [.advance valid']))).returns =
      s.returns ++ [(p, c)] := by
  obtain ⟨hframe, hreturns, hparams⟩ := quiet_run hbefore s
  have h₁ := h.run before
  set s₁ := Mongolite.run poolStep s before with hs₁
  have hlooked := h₁.advance_held (hframe.trans hf) (hparams ▸ hp) hc valid
  obtain ⟨-, -, hreturns₂, -⟩ := advance_called (hframe.trans hf) valid
  obtain ⟨hframe₃, hreturns₃, -⟩ := quiet_run hbetween (advanceCall valid s₁)
  have h₃ := (h₁.advance valid).run between
  rw [run_append, ← hs₁, run_cons, run_append]
  change (advanceCall valid' (Mongolite.run poolStep (advanceCall valid s₁) between)).returns = _
  rw [h₃.advance_looked (hframe₃.trans hlooked)]
  change (Mongolite.run poolStep (advanceCall valid s₁) between).returns ++ [(p, c)] = _
  rw [hreturns₃, hreturns₂, hreturns]

/-- Two or three steps return a client; after three it is a new one, which is in the pool. -/
theorem Pooled.returns_some (h : Pooled s) (hf : s.frame = .called p)
    (hbefore : ∀ event ∈ before, event.isQuiet = true)
    (hbetween : ∀ event ∈ between, event.isQuiet = true)
    (hafter : ∀ event ∈ after, event.isQuiet = true) :
    ∃ c, (Mongolite.run poolStep s
        (before ++ .advance true :: (between ++ [.advance true]))).returns =
          s.returns ++ [(p, c)] ∨
      s.params c = none ∧ ∃ s', Mongolite.run poolStep s (before ++ .advance true ::
          (between ++ .advance true :: (after ++ [.advance true]))) = s' ∧
        s'.returns = s.returns ++ [(p, c)] ∧ s'.pool p = some (some c) ∧
          s'.params c = some p := by
  obtain ⟨hframe, hreturns, hparams⟩ := quiet_run hbefore s
  have h₁ := h.run before
  set s₁ := Mongolite.run poolStep s before with hs₁
  obtain ⟨client, hlooked, hreturns₂, hparams₂⟩ := advance_called (hframe.trans hf) true
  obtain ⟨hframe₃, hreturns₃, hparams₃⟩ := quiet_run hbetween (advanceCall true s₁)
  have h₃ := (h₁.advance true).run between
  have hrun : ∀ events, Mongolite.run poolStep s
      (before ++ .advance true :: (between ++ .advance true :: events)) =
        Mongolite.run poolStep (advanceCall true
          (Mongolite.run poolStep (advanceCall true s₁) between)) events := by
    intro events
    rw [run_append, ← hs₁, run_cons, run_append]
    rfl
  set s₃ := Mongolite.run poolStep (advanceCall true s₁) between with hs₃
  rw [hlooked] at hframe₃
  cases client with
  | some c =>
    refine ⟨c, .inl ?_⟩
    rw [hrun, h₃.advance_looked hframe₃]
    change s₃.returns ++ [(p, c)] = _
    rw [hreturns₃, hreturns₂, hreturns]
  | none =>
    have hnew : advanceCall true s₃ = mongoClientNew true p s₃ := by
      simp only [advanceCall, hframe₃]
    have hnone : s₃.params s₃.heap.made = none := h₃.fresh _ (Nat.le_refl _)
    obtain ⟨hframe₅, hreturns₅, hparams₅⟩ := quiet_run hafter (mongoClientNew true p s₃)
    refine ⟨s₃.heap.made, .inr ⟨?_, _, rfl, ?_⟩⟩
    · rw [← hparams, ← hparams₂, ← hparams₃]
      exact hnone
    · rw [hrun, hnew, run_append]
      set s₅ := Mongolite.run poolStep (mongoClientNew true p s₃) after with hs₅
      have hcreated : s₅.frame = .created p s₃.heap.made := hframe₅
      have hlast : Mongolite.run poolStep s₅ [.advance true] =
          returnClient p s₃.heap.made
            { s₅ with pool := Function.update s₅.pool p (some (some s₃.heap.made)) } := by
        change advanceCall true s₅ = _
        simp only [advanceCall, hcreated]
      rw [hlast]
      refine ⟨?_, Function.update_self .., ?_⟩
      · change s₅.returns ++ [(p, s₃.heap.made)] = _
        rw [hreturns₅]
        change s₃.returns ++ _ = _
        rw [hreturns₃, hreturns₂, hreturns]
      · change s₅.params s₃.heap.made = some p
        rw [hparams₅]
        exact Function.update_self ..

/-- `event` makes a call for `p` return the client `c`. -/
def Returns (s : PoolState P) (event : PoolEvent P) (p : P) (c : ℕ) : Prop :=
  (poolStep s event).returns = s.returns ++ [(p, c)]

/-- Clients are shared exactly and alive. A call returns the client for its parameters that is
referenced when it looks, and otherwise one that it revives or makes, unless it is interrupted or no
client can be made. -/
structure SharesExactly (s : PoolState P) : Prop where
  alive : ∀ c, 0 < s.heap.refs c → s.heap.finalized c = false
  returnsHeld : ∀ p c before between valid valid', s.frame = .called p →
    (∀ event ∈ before, PoolEvent.isQuiet event = true) →
    (∀ event ∈ between, PoolEvent.isQuiet event = true) → s.params c = some p →
    0 < (run poolStep s before).heap.refs c →
      (run poolStep s (before ++ .advance valid :: (between ++ [.advance valid']))).returns =
        s.returns ++ [(p, c)]
  returnsSome : ∀ p before between after, s.frame = .called p →
    (∀ event ∈ before, PoolEvent.isQuiet event = true) →
    (∀ event ∈ between, PoolEvent.isQuiet event = true) →
    (∀ event ∈ after, PoolEvent.isQuiet event = true) →
      ∃ c, (run poolStep s (before ++ .advance true :: (between ++ [.advance true]))).returns =
          s.returns ++ [(p, c)] ∨
        s.params c = none ∧ ∃ s', run poolStep s (before ++ .advance true ::
            (between ++ .advance true :: (after ++ [.advance true]))) = s' ∧
          s'.returns = s.returns ++ [(p, c)] ∧ s'.pool p = some (some c) ∧ s'.params c = some p
  returnsReferenced : ∀ event p c, Returns s event p c →
    (poolStep s event).params c = some p ∧ 0 < (poolStep s event).heap.refs c ∧
      (poolStep s event).heap.finalized c = false
  returnsShared : ∀ event p c c', Returns s event p c → s.params c' = some p →
    0 < s.heap.refs c' → c' = c
  createsOnce : ∀ p c, s.frame = .looked p none → s.params c = some p → s.heap.refs c = 0
  apart : ∀ p q c, (p, c) ∈ s.returns → (q, c) ∈ s.returns → p = q
  unique : ∀ p c c', s.params c = some p → s.params c' = some p → 0 < s.heap.refs c →
    0 < s.heap.refs c' → c = c'

theorem frame_of_returns {event : PoolEvent P} (h : Returns s event p c) :
    s.frame.client = some c ∧ (poolStep s event).heap = s.heap ∧
      (poolStep s event).params = s.params := by
  have hstep : (poolStep s event).returns = s.returns ∨ ∃ q i, s.frame.client = some i ∧
      ((poolStep s event).heap = s.heap ∧ (poolStep s event).params = s.params) ∧
        (poolStep s event).returns = s.returns ++ [(q, i)] := by
    cases event with
    | advance valid =>
      cases hf : s.frame with
      | idle => exact .inl (by simp [poolStep, advanceCall, hf])
      | called q =>
        have hreturns := (getWeakref_frame q s).2
        simp only [poolStep, advanceCall, hf]
        split
        all_goals
          rename_i hget
          rw [hget] at hreturns
          exact .inl hreturns
      | looked q client =>
        simp only [poolStep, advanceCall, hf, mongoClientNew, returnClient]
        cases client with
        | none => exact .inl (by split_ifs <;> rfl)
        | some i =>
          by_cases hnull : nullPtr s i
          · exact .inl (by simp only [hnull, if_true]; split_ifs <;> rfl)
          · exact .inr ⟨q, i, rfl, by simp [hnull], by simp [hnull]⟩
      | created q i =>
        exact .inr ⟨q, i, rfl, by simp [poolStep, advanceCall, hf, returnClient],
          by simp [poolStep, advanceCall, hf, returnClient]⟩
    | interrupt => exact .inl (by simp only [poolStep]; split <;> rfl)
    | newClient | copy | release => exact .inl (by simp only [poolStep]; split_ifs <;> rfl)
    | gc | runFinalizers => exact .inl rfl
  rcases hstep with hsame | ⟨q, i, hclient, hkeep, hreturns⟩
  · simp [Returns, hsame] at h
  · obtain ⟨rfl, rfl⟩ : q = p ∧ i = c := by simpa [Returns, hreturns] using h
    exact ⟨hclient, hkeep⟩

theorem Pooled.sharesExactly (h : Pooled s) : SharesExactly s := by
  have hreturned : ∀ event p c, Returns s event p c →
      (poolStep s event).params c = some p ∧ 0 < (poolStep s event).heap.refs c := by
    intro event p c hr
    obtain ⟨hclient, hheap, -⟩ := frame_of_returns hr
    refine ⟨(h.step event).returns p c ?_, hheap ▸ h.client_pos hclient⟩
    rw [hr]
    exact List.mem_concat_self
  constructor
  · exact fun c hc => (h.sound.alive c hc).2.2
  · intro p c before between valid valid' hf hbefore hbetween hp hc
    exact h.returns_held hf hbefore hbetween hp hc
  · intro p before between after hf hbefore hbetween hafter
    exact h.returns_some hf hbefore hbetween hafter
  · intro event p c hr
    obtain ⟨hp, hpos⟩ := hreturned event p c hr
    exact ⟨hp, hpos, ((h.step event).sound.alive c hpos).2.2⟩
  · intro event p c c' hr hp' hc'
    obtain ⟨hp, hpos⟩ := hreturned event p c hr
    obtain ⟨-, hheap, hparams⟩ := frame_of_returns hr
    exact (h.step event).unique (hparams ▸ hp') hp (hheap ▸ hc') hpos
  · exact fun p c hf hp => h.missing p hf c hp
  · exact fun p q c hp hq => Option.some.inj ((h.returns p c hp).symm.trans (h.returns q c hq))
  · exact fun p c c' hp hp' hc hc' => h.unique hp hp' hc hc'

/-- Whatever calls, releases, collections and finalizers come in whatever order, clients are shared
exactly and are never handed out dead. -/
theorem newClient_shares (events : List (PoolEvent P)) :
    SharesExactly (run poolStep emptyPool events) := by
  have hstep : ∀ (s : PoolState P) event, Pooled s → True → Pooled (poolStep s event) :=
    fun s event h _ => h.step event
  have hrun := run_invariant hstep Pooled.empty (meets_true poolStep emptyPool events)
  exact hrun.sharesExactly

/-- Two calls for the same parameters give the same client, with a collection between them. -/
theorem newClient_shares_reused :
    (run poolStep (run poolStep (emptyPool : PoolState String)
        [.newClient "a", .advance true, .advance true, .advance true, .gc [0], .newClient "a"])
      ([.gc [0]] ++ .advance true :: ([.runFinalizers] ++ [.advance true]))).returns =
      [("a", 0), ("a", 0)] := by
  have hshares := newClient_shares (P := String)
    [.newClient "a", .advance true, .advance true, .advance true, .gc [0], .newClient "a"]
  exact hshares.returnsHeld "a" 0 [.gc [0]] [.runFinalizers] true true (by decide) (by decide)
    (by decide) (by decide) (by decide)

/-- A client that nothing refers to is handed out again, unless it was marked in the meantime. -/
example : (run poolStep (emptyPool : PoolState String)
    [.newClient "a", .advance true, .advance true, .advance true, .release 0,
      .newClient "a", .advance true, .advance true, .release 0, .gc [0],
      .newClient "a", .advance true, .advance true, .advance true]).returns =
    [("a", 0), ("a", 0), ("a", 1)] := by decide

end Mongolite
