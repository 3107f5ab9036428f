import Mathlib.Algebra.Order.Ring.Nat
import Mathlib.Tactic.ByContra
import Mathlib.Tactic.SplitIfs
import Mongolite.GridFS.OpenFile

/-! # What a written file contains

While a file is written, its full chunks are on the server and the page holds
the rest. After it is saved all its chunks are on the server.
-/

namespace Mongolite

variable {fate : ℕ → Fate} {old : List FileDoc} {d₀ : FileDoc} {m k : ℕ}
  {content : List UInt8} {x x' : FileIO} {b : Bool}

def chunkOf (size : ℕ) (content : List UInt8) (k : ℕ) : List UInt8 :=
  (content.drop (k * size)).take size

def FileDoc.withContent (d₀ : FileDoc) (content : List UInt8) : FileDoc :=
  { d₀ with length := content.length }

/-- The first `m` chunks of the content are stored, the page holds what comes after them, and the
other documents are among the `old` ones. -/
structure Written (old : List FileDoc) (d₀ : FileDoc) (m : ℕ) (content : List UInt8) (x : FileIO) :
    Prop where
  size_pos : 0 < d₀.chunkSize
  doc : x.1.doc = d₀.withContent content
  pos : x.1.pos = content.length
  le : m * d₀.chunkSize ≤ content.length
  bound : m ≤ 2 ^ 31
  stored : ∀ k, k < m → x.2.chunks d₀.id k = some (chunkOf d₀.chunkSize content k)
  noPage : x.1.page = none → content.length = m * d₀.chunkSize
  page : ∀ p, x.1.page = some p → x.1.n = m ∧ m < 2 ^ 31 ∧ p.offset = p.data.length ∧
    p.data = content.drop (m * d₀.chunkSize) ∧ p.data.length ≤ d₀.chunkSize ∧
    (p.isDirty = false → p.data = [])
  own : ∀ d ∈ x.2.files, d.id = d₀.id ∨ d ∈ old

theorem lt_divideRoundUp_iff {a b : ℕ} (hb : 0 < b) : k < divideRoundUp a b ↔ k * b < a := by
  have hdiv := Nat.div_add_mod a b
  have hmod := Nat.mod_lt a hb
  rw [divideRoundUp]
  split_ifs with h
  · rw [Nat.lt_succ_iff, Nat.le_div_iff_mul_le hb]
    constructor
    · intro hle
      refine Nat.lt_of_le_of_ne hle ?_
      rintro rfl
      exact h (Nat.mul_mod_left k b)
    · exact le_of_lt
  · have ha : b * (a / b) = a := by omega
    constructor
    · intro hlt
      calc k * b < a / b * b := Nat.mul_lt_mul_of_pos_right hlt hb
        _ = a := by rw [Nat.mul_comm, ha]
    · intro hlt
      by_contra hge
      have hle : a / b * b ≤ k * b := Nat.mul_le_mul_right b (Nat.le_of_not_lt hge)
      rw [Nat.mul_comm, ha] at hle
      omega

theorem lt_of_mul_lt {a b size n : ℕ} (h : a * size < n) (hle : n ≤ b * size) : a < b :=
  Nat.lt_of_mul_lt_mul_right (Nat.lt_of_lt_of_le h hle)

theorem chunkOf_append {size : ℕ} (more : List UInt8) (h : (k + 1) * size ≤ content.length) :
    chunkOf size (content ++ more) k = chunkOf size content k := by
  have hk : (k + 1) * size = k * size + size := Nat.succ_mul k size
  rw [chunkOf, chunkOf, List.drop_append_of_le_length (by omega),
    List.take_append_of_le_length (by rw [List.length_drop]; omega)]

theorem Written.currentPage (h : Written old d₀ m content x) :
    (2 ^ 31 ≤ m ∧ ∃ f, currentPage x.2 x.1 = (false, f)) ∨
      ∃ f p, currentPage x.2 x.1 = (true, f) ∧ f.page = some p ∧ f.isDirty = x.1.isDirty ∧
        (x.1.page = some p ∨ p.data = []) ∧ Written old d₀ m content (f, x.2) := by
  unfold Mongolite.currentPage
  cases hpage : x.1.page with
  | some p => exact .inr ⟨x.1, p, by simp, hpage, rfl, .inl rfl, h⟩
  | none =>
    have hlen := h.noPage hpage
    have hdiv : content.length / d₀.chunkSize = m := by
      rw [hlen, Nat.mul_div_cancel _ h.size_pos]
    have hmod : content.length % d₀.chunkSize = 0 := by rw [hlen, Nat.mul_mod_left]
    have hlt : divideRoundUp content.length d₀.chunkSize <
        divideRoundUp (content.length + 1) d₀.chunkSize := by
      rw [lt_divideRoundUp_iff h.size_pos]
      have hle : ¬ m < divideRoundUp content.length d₀.chunkSize := by
        rw [lt_divideRoundUp_iff h.size_pos]
        omega
      have := Nat.mul_le_mul_right d₀.chunkSize (Nat.le_of_not_lt hle)
      omega
    simp only [Option.isNone_none, if_true, refreshPage, h.doc, FileDoc.withContent, h.pos, hdiv,
      hmod]
    split_ifs with hmany
    · exact .inl ⟨by omega, _, rfl⟩
    · refine .inr ⟨_, ⟨[], 0, false⟩, rfl, rfl, rfl, .inr rfl, ?_⟩
      constructor
      · exact h.size_pos
      · rfl
      · rfl
      · exact h.le
      · exact h.bound
      · exact h.stored
      · simp
      · rintro p ⟨⟩
        refine ⟨rfl, by omega, rfl, ?_, Nat.zero_le _, fun _ => rfl⟩
        rw [← hlen, List.drop_length]
      · exact h.own

theorem Written.write (h : Written old d₀ m content x) {p : FilePage} (hpage : x.1.page = some p)
    (src : List UInt8) :
    ∃ r p', p.write x.1.doc.chunkSize src = some (r, p') ∧ p'.isDirty = true ∧ r ≤ src.length ∧
      p'.data.length = p.data.length + r ∧ (r ≠ src.length → p'.data.length = d₀.chunkSize) ∧
      Written old d₀ m (content ++ src.take r) ({ x.1 with
        page := some p', pos := x.1.pos + r,
        doc := { x.1.doc with length := max x.1.doc.length (x.1.pos + r) } }, x.2) := by
  obtain ⟨hn, hm, hoff, hdata, hle, -⟩ := h.page p hpage
  have hsize : x.1.doc.chunkSize = d₀.chunkSize := by rw [h.doc]; rfl
  have hfits : ¬ p.offset > d₀.chunkSize := by omega
  have hnew : p.data.take p.offset ++ (src.take (d₀.chunkSize - p.offset) ++
      p.data.drop (p.offset + (src.take (d₀.chunkSize - p.offset)).length)) =
      p.data ++ src.take (d₀.chunkSize - p.offset) := by
    rw [hoff, List.take_length, List.drop_eq_nil_of_le (Nat.le_add_right _ _), List.append_nil]
  have hwrite : p.write x.1.doc.chunkSize src = some
      ((src.take (d₀.chunkSize - p.offset)).length,
        ⟨p.data ++ src.take (d₀.chunkSize - p.offset),
          p.offset + (src.take (d₀.chunkSize - p.offset)).length, true⟩) := by
    simp only [FilePage.write, hsize, if_neg hfits, hnew]
  have htake : (src.take (d₀.chunkSize - p.offset)).length =
      min (d₀.chunkSize - p.offset) src.length := List.length_take
  refine ⟨_, _, hwrite, rfl, ?_, List.length_append, ?_, ?_⟩
  · omega
  · intro hne
    simp only [List.length_append]
    omega
  · have htook : src.take (src.take (d₀.chunkSize - p.offset)).length =
        src.take (d₀.chunkSize - p.offset) := by
      rw [htake, ← List.take_take, List.take_length]
    have hlen : (content ++ src.take (d₀.chunkSize - p.offset)).length =
        content.length + (src.take (d₀.chunkSize - p.offset)).length := List.length_append
    rw [htook]
    constructor
    · exact h.size_pos
    · simp only [h.doc, h.pos, FileDoc.withContent, hlen]
      congr 1
      omega
    · simp only [h.pos, hlen]
    · have := h.le
      omega
    · exact h.bound
    · intro k hk
      have hmul : (k + 1) * d₀.chunkSize ≤ m * d₀.chunkSize := Nat.mul_le_mul_right _ hk
      rw [chunkOf_append _ (hmul.trans h.le)]
      exact h.stored k hk
    · simp
    · rintro p' ⟨⟩
      refine ⟨hn, hm, ?_, ?_, ?_, by simp⟩
      · simp only [List.length_append, hoff]
      · rw [List.drop_append_of_le_length h.le, hdata]
      · simp only [List.length_append]
        omega
    · exact h.own

theorem Written.setDirty (h : Written old d₀ m content x) (b : Bool) :
    Written old d₀ m content ({ x.1 with isDirty := b }, x.2) where
  size_pos := h.size_pos
  doc := h.doc
  pos := h.pos
  le := h.le
  bound := h.bound
  stored := h.stored
  noPage := h.noPage
  page := h.page
  own := h.own

/-! ## Updates -/

theorem setFile_spec (doc : FileDoc) (s : GridServer) :
    doc ∈ (s.setFile doc).files ∧ (∀ d ∈ (s.setFile doc).files, d.id = doc.id → d = doc) ∧
      ∀ d ∈ (s.setFile doc).files, d.id = doc.id ∨ d ∈ s.files := by
  unfold GridServer.setFile
  split_ifs with hany
  · obtain ⟨d₁, hd₁, hid₁⟩ := List.any_eq_true.mp hany
    refine ⟨List.mem_map.mpr ⟨d₁, hd₁, if_pos (of_decide_eq_true hid₁)⟩, ?_, ?_⟩
    all_goals
      intro d hd
      obtain ⟨d', hd', rfl⟩ := List.mem_map.mp hd
      split_ifs with hid
    · exact fun _ => rfl
    · exact fun h => absurd h hid
    · exact .inl rfl
    · exact .inr hd'
  · refine ⟨List.mem_concat_self, ?_, ?_⟩
    · intro d hd hid
      rcases List.mem_append.mp hd with hd | hd
      · exact absurd (List.any_eq_true.mpr ⟨d, hd, decide_eq_true hid⟩) hany
      · exact List.mem_singleton.mp hd
    · intro d hd
      rcases List.mem_append.mp hd with hd | hd
      · exact .inr hd
      · exact .inl (congrArg FileDoc.id (List.mem_singleton.mp hd))

def Fate.isCarriedOut : Fate → Bool
  | .refused _ => false
  | _ => true

/-- All that updating the file document can do. -/
theorem upsertFile_cases (hrun : upsertFile fate x = (b, x')) :
    x'.1 = { x.1 with isDirty := false, error := x'.1.error } ∧
      (b = true ↔ fate x.2.sent = .done) ∧
      x'.2 = if (fate x.2.sent).isCarriedOut
        then GridServer.setFile x.1.doc { x.2 with sent := x.2.sent + 1 }
        else { x.2 with sent := x.2.sent + 1 } := by
  unfold upsertFile GridServer.update at hrun
  cases hfate : fate x.2.sent with
  | done =>
    simp only [hfate, Prod.mk.injEq] at hrun
    obtain ⟨rfl, rfl⟩ := hrun
    exact ⟨rfl, by simp, rfl⟩
  | refused e =>
    simp only [hfate, Prod.mk.injEq] at hrun
    obtain ⟨rfl, rfl⟩ := hrun
    exact ⟨rfl, by simp, rfl⟩
  | lost e =>
    simp only [hfate, Prod.mk.injEq] at hrun
    obtain ⟨rfl, rfl⟩ := hrun
    exact ⟨rfl, by simp, rfl⟩

theorem upsertFile_spec (hrun : upsertFile fate x = (b, x')) :
    x'.1.doc = x.1.doc ∧ x'.1.pos = x.1.pos ∧ x'.1.page = x.1.page ∧ x'.1.isDirty = false ∧
      x'.2.chunks = x.2.chunks ∧ ∀ d ∈ x'.2.files, d.id = x.1.doc.id ∨ d ∈ x.2.files := by
  obtain ⟨hfile, -, hserver⟩ := upsertFile_cases hrun
  have hkept : x'.2.chunks = x.2.chunks ∧
      ∀ d ∈ x'.2.files, d.id = x.1.doc.id ∨ d ∈ x.2.files := by
    rw [hserver]
    split_ifs
    · exact ⟨rfl, (setFile_spec x.1.doc { x.2 with sent := x.2.sent + 1 }).2.2⟩
    · exact ⟨rfl, fun d hd => .inr hd⟩
  rw [hfile]
  exact ⟨rfl, rfl, rfl, rfl, hkept⟩

theorem upsertFile_files (hrun : upsertFile fate x = (true, x')) :
    x'.2.files = (x.2.setFile x.1.doc).files := by
  obtain ⟨-, hdone, hserver⟩ := upsertFile_cases hrun
  rw [hserver, hdone.mp rfl]
  rfl

/-- The file without its page, which is stored. -/
def storedPage (x : FileIO) : FileIO :=
  ({ x.1 with page := none }, GridServer.setChunk x.1.doc.id x.1.n
    (x.1.page.elim [] FilePage.data) { x.2 with sent := x.2.sent + 1 })

theorem flushPage_cases (hrun : flushPage fate x = (b, x')) :
    (fate x.2.sent ≠ .done ∧ b = false ∧ x'.1 = { x.1 with error := x'.1.error } ∧
        x'.2.files = x.2.files ∧ x'.2.sent = x.2.sent + 1) ∨
      (fate x.2.sent = .done ∧ x.1.isDirty = true ∧ upsertFile fate (storedPage x) = (b, x')) ∨
      (fate x.2.sent = .done ∧ x.1.isDirty = false ∧ b = true ∧ x' = storedPage x) := by
  unfold flushPage GridServer.update at hrun
  cases hfate : fate x.2.sent with
  | refused e =>
    simp only [hfate, Prod.mk.injEq] at hrun
    obtain ⟨rfl, rfl⟩ := hrun
    exact .inl ⟨by simp, rfl, rfl, rfl, rfl⟩
  | lost e =>
    simp only [hfate, Prod.mk.injEq] at hrun
    obtain ⟨rfl, rfl⟩ := hrun
    exact .inl ⟨by simp, rfl, rfl, rfl, rfl⟩
  | done =>
    simp only [hfate] at hrun
    split_ifs at hrun with hdirty
    · exact .inr (.inl ⟨rfl, hdirty, hrun⟩)
    · cases hrun
      exact .inr (.inr ⟨rfl, by simpa using hdirty, rfl, rfl⟩)

theorem flushPage_spec (hrun : flushPage fate x = (true, x')) :
    x'.1.doc = x.1.doc ∧ x'.1.pos = x.1.pos ∧ x'.1.page = none ∧
      x'.2.chunks = (x.2.setChunk x.1.doc.id x.1.n (x.1.page.elim [] FilePage.data)).chunks ∧
      ∀ d ∈ x'.2.files, d.id = x.1.doc.id ∨ d ∈ x.2.files := by
  obtain ⟨-, hb, -⟩ | ⟨-, -, hup⟩ | ⟨-, -, -, rfl⟩ := flushPage_cases hrun
  · cases hb
  · obtain ⟨hdoc, hpos, hpage, -, hchunks, hown⟩ := upsertFile_spec hup
    exact ⟨hdoc, hpos, hpage, hchunks, hown⟩
  · exact ⟨rfl, rfl, rfl, rfl, fun d hd => .inr hd⟩

theorem Written.flush (h : Written old d₀ m content x) {p : FilePage} (hpage : x.1.page = some p)
    (hfull : p.data.length = d₀.chunkSize) (hrun : flushPage fate x = (true, x')) :
    Written old d₀ (m + 1) content x' := by
  obtain ⟨hdoc, hpos, hnone, hchunks, hown⟩ := flushPage_spec hrun
  obtain ⟨hn, hm, -, hdata, -, -⟩ := h.page p hpage
  have hid : x.1.doc.id = d₀.id := by rw [h.doc]; rfl
  have hlen : content.length = (m + 1) * d₀.chunkSize := by
    have hdrop : p.data.length = content.length - m * d₀.chunkSize := by
      rw [hdata, List.length_drop]
    have := h.le
    rw [Nat.succ_mul]
    omega
  constructor
  · exact h.size_pos
  · rw [hdoc, h.doc]
  · rw [hpos, h.pos]
  · exact hlen.ge
  · exact hm
  · intro k hk
    rw [hchunks, GridServer.setChunk, hid, hn, hpage]
    simp only [true_and]
    split_ifs with heq
    · subst heq
      rw [chunkOf, ← hdata, ← hfull, List.take_length]
      rfl
    · exact h.stored k (by omega)
  · exact fun _ => hlen
  · simp [hnone]
  · intro d hd
    rcases hown d hd with hd | hd
    · exact .inl (hd.trans hid)
    · exact h.own d hd

/-- A write ends, and where it succeeds it appends what is written. Each page after the first has
room for a byte, so there are at most `src.length + 2` rounds. -/
theorem Written.writevLoop (src : List UInt8) (fuel written : ℕ) (h : Written old d₀ m content x)
    (hfuel : src.length + 1 < fuel ∨
      src.length < fuel ∧ ∀ p, x.1.page = some p → p.data.length < d₀.chunkSize) :
    ∃ len x', writevLoop fate fuel src written x = some (len, x') ∧
      ∀ n, len = some n → n = written + src.length ∧ x'.1.isDirty = true ∧
        ∃ m', Written old d₀ m' (content ++ src) x' := by
  induction fuel generalizing m content src written x with
  | zero => omega
  | succ fuel ih =>
    rw [Mongolite.writevLoop]
    obtain ⟨-, f, hfalse⟩ | ⟨f, p, htrue, hpage, -, hroom, hf⟩ := h.currentPage
    · exact ⟨none, (f, x.2), by simp only [hfalse], by simp⟩
    · obtain ⟨r, p', hwrite, -, hr, hgrow, hfull, hwritten⟩ := hf.write hpage src
      simp only [htrue, hpage, Option.bind_some, hwrite]
      split_ifs with hall
      · refine ⟨_, _, rfl, ?_⟩
        rintro n ⟨⟩
        refine ⟨by rw [hall], rfl, m, ?_⟩
        have htake : src.take r = src := by rw [hall, List.take_length]
        rw [htake] at hwritten
        exact hwritten.setDirty true
      · rcases hflush : flushPage fate ({ f with
          page := some p', pos := f.pos + r,
          doc := { f.doc with length := max f.doc.length (f.pos + r) } }, x.2) with ⟨_ | _, x₁⟩
        · exact ⟨none, x₁, rfl, by simp⟩
        · have hnext := hwritten.flush rfl (hfull hall) hflush
          have hnone := (flushPage_spec hflush).2.2.1
          have hlen : (src.drop r).length = src.length - r := List.length_drop
          have hless : (src.drop r).length < fuel := by
            rcases hfuel with hfuel | ⟨hfuel, hspace⟩
            · omega
            · have hlt : p.data.length < d₀.chunkSize := by
                rcases hroom with hp | hp
                · exact hspace p hp
                · rw [hp]
                  exact h.size_pos
              have := hfull hall
              omega
          obtain ⟨len, x', hrun, hspec⟩ := ih (src.drop r) (written + r) hnext
            (.inr ⟨hless, fun p hp => by simp [hnone] at hp⟩)
          refine ⟨len, x', hrun, ?_⟩
          intro n hn
          obtain ⟨hsum, hdirty, hm'⟩ := hspec n hn
          rw [List.append_assoc, List.take_append_drop] at hm'
          exact ⟨by omega, hdirty, hm'⟩

/-! ## The saved file -/

def Stored (d₀ : FileDoc) (content : List UInt8) (s : GridServer) : Prop :=
  ∀ k, k * d₀.chunkSize < content.length →
    s.chunks d₀.id k = some (chunkOf d₀.chunkSize content k)

/-- The file is saved: its chunks are stored, and it has one document. -/
structure Saved (old : List FileDoc) (d₀ : FileDoc) (content : List UInt8) (x : FileIO) : Prop where
  size_pos : 0 < d₀.chunkSize
  doc : x.1.doc = d₀.withContent content
  clean : x.1.isDirty = false
  bound : content.length ≤ 2 ^ 31 * d₀.chunkSize
  stored : Stored d₀ content x.2
  mem : d₀.withContent content ∈ x.2.files
  only : ∀ d ∈ x.2.files, d.id = d₀.id → d = d₀.withContent content
  own : ∀ d ∈ x.2.files, d.id = d₀.id ∨ d ∈ old

theorem Written.length_le (h : Written old d₀ m content x) :
    content.length ≤ 2 ^ 31 * d₀.chunkSize ∧
      (x.1.page ≠ none → content.length ≤ (m + 1) * d₀.chunkSize) := by
  cases hpage : x.1.page with
  | none =>
    refine ⟨?_, fun hne => absurd rfl hne⟩
    rw [h.noPage hpage]
    exact Nat.mul_le_mul_right _ h.bound
  | some p =>
    obtain ⟨-, hm, -, hdata, hle, -⟩ := h.page p hpage
    have hlen : content.length ≤ (m + 1) * d₀.chunkSize := by
      rw [hdata, List.length_drop] at hle
      rw [Nat.succ_mul]
      omega
    exact ⟨hlen.trans (Nat.mul_le_mul_right _ hm), fun _ => hlen⟩

/-- Where the chunks are stored and the document is updated, the file is saved. -/
theorem saved_of_upsertFile (hsize : 0 < d₀.chunkSize) (hdoc : x.1.doc = d₀.withContent content)
    (hbound : content.length ≤ 2 ^ 31 * d₀.chunkSize) (hstored : Stored d₀ content x.2)
    (hown : ∀ d ∈ x.2.files, d.id = d₀.id ∨ d ∈ old) (hrun : upsertFile fate x = (true, x')) :
    Saved old d₀ content x' := by
  obtain ⟨hsame, -, -, hclean, hchunks, hown'⟩ := upsertFile_spec hrun
  obtain ⟨hmem, honly, -⟩ := setFile_spec x.1.doc x.2
  have hfiles := upsertFile_files hrun
  rw [hdoc] at hsame hmem honly hown' hfiles
  exact ⟨hsize, hsame, hclean, hbound, fun k hk => hchunks ▸ hstored k hk, hfiles ▸ hmem,
    hfiles ▸ honly, fun d hd => (hown' d hd).elim .inl (hown d)⟩

theorem Written.save (h : Written old d₀ m content x) (hdirty : x.1.isDirty = true)
    (hrun : mongocGridfsFileSave fate x = (true, x')) : Saved old d₀ content x' := by
  obtain ⟨hbound, hlast⟩ := h.length_le
  have hid : x.1.doc.id = d₀.id := by rw [h.doc]; rfl
  unfold mongocGridfsFileSave at hrun
  simp only [hdirty, not_true_eq_false, if_false] at hrun
  split_ifs at hrun with hpage
  · obtain ⟨p, hp⟩ : ∃ p, x.1.page = some p := by
      cases hp : x.1.page with
      | none => simp [hp] at hpage
      | some p => exact ⟨p, rfl⟩
    obtain ⟨hn, -, -, hdata, hle, -⟩ := h.page p hp
    rcases hflush : flushPage fate x with ⟨_ | _, x₁⟩
    · simp [hflush] at hrun
    · obtain ⟨hdoc, -, -, hchunks, hown⟩ := flushPage_spec hflush
      simp only [hflush] at hrun
      refine saved_of_upsertFile h.size_pos (hdoc.trans h.doc) hbound ?_ ?_ hrun
      · intro k hk
        rw [hchunks, GridServer.setChunk, hid, hn, hp]
        simp only [true_and]
        split_ifs with heq
        · subst heq
          rw [chunkOf, ← hdata, List.take_of_length_le hle]
          rfl
        · have hlt : k < m + 1 := lt_of_mul_lt hk (hlast (by simp [hp]))
          exact h.stored k (by omega)
      · intro d hd
        exact (hown d hd).elim (fun he => .inl (he.trans hid)) (h.own d)
  · have hlen : content.length ≤ m * d₀.chunkSize := by
      cases hp : x.1.page with
      | none => exact (h.noPage hp).le
      | some p =>
        obtain ⟨-, -, -, hdata, -, hempty⟩ := h.page p hp
        have hnil := hempty (by simpa [hp] using hpage)
        rw [hdata, List.drop_eq_nil_iff] at hnil
        exact hnil
    refine saved_of_upsertFile h.size_pos h.doc hbound (fun k hk => h.stored k ?_) h.own hrun
    exact lt_of_mul_lt hk hlen

end Mongolite
