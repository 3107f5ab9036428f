import Mongolite.GridFS.Streams
import Mongolite.GridFS.Writing

/-! # Reading a stored file

A read returns the next bytes of the content whose chunks are on the server, as
many as were asked for unless the file ends before. So both readers give the
content back, whatever the sizes of their buffers.
-/

namespace Mongolite

variable {d₀ : FileDoc} {content bytes out : List UInt8} {s : GridServer} {f : OpenFile}
  {pos want k : ℕ}

/-- A file with this content on the server, read up to `pos`. The page, if there is one, is the
chunk that ends or goes on there. -/
structure ReadAt (d₀ : FileDoc) (content : List UInt8) (s : GridServer) (pos : ℕ) (f : OpenFile) :
    Prop where
  size_pos : 0 < d₀.chunkSize
  doc : f.doc = d₀.withContent content
  bound : content.length ≤ 2 ^ 31 * d₀.chunkSize
  stored : Stored d₀ content s
  pos_eq : f.pos = pos
  le : pos ≤ content.length
  page : ∀ p, f.page = some p → ∃ k, p.data = chunkOf d₀.chunkSize content k ∧
    pos = k * d₀.chunkSize + p.offset ∧ p.offset ≤ p.data.length

theorem length_chunkOf (size : ℕ) (content : List UInt8) (k : ℕ) :
    (chunkOf size content k).length = min size (content.length - k * size) := by
  rw [chunkOf, List.length_take, List.length_drop]

theorem ReadAt.refresh (h : ReadAt d₀ content s pos f) (hpos : pos < content.length) :
    ∃ f' p, refreshPage s f = (true, f') ∧ ReadAt d₀ content s pos f' ∧ f'.page = some p ∧
      p.offset < p.data.length := by
  have hmod := Nat.mod_lt pos h.size_pos
  have hdiv : pos / d₀.chunkSize * d₀.chunkSize + pos % d₀.chunkSize = pos := by
    rw [Nat.mul_comm]
    exact Nat.div_add_mod pos d₀.chunkSize
  have hk : pos / d₀.chunkSize * d₀.chunkSize < content.length := by omega
  have hfew : ¬ pos / d₀.chunkSize > 2 ^ 31 - 1 := by
    have := lt_of_mul_lt hk h.bound
    omega
  have hlast : ¬ divideRoundUp (pos + 1) d₀.chunkSize >
      divideRoundUp content.length d₀.chunkSize := by
    intro hgt
    have hless := (lt_divideRoundUp_iff h.size_pos).mp hgt
    have hself : divideRoundUp content.length d₀.chunkSize <
        divideRoundUp content.length d₀.chunkSize :=
      (lt_divideRoundUp_iff h.size_pos).mpr (by omega)
    exact Nat.lt_irrefl _ hself
  have hlen := length_chunkOf d₀.chunkSize content (pos / d₀.chunkSize)
  have hfull : ¬ (pos / d₀.chunkSize + 1 ≠ divideRoundUp content.length d₀.chunkSize ∧
      (chunkOf d₀.chunkSize content (pos / d₀.chunkSize)).length ≠ d₀.chunkSize) := by
    rintro ⟨hne, hshort⟩
    have hlt := (lt_divideRoundUp_iff h.size_pos).mpr hk
    have hnext : (pos / d₀.chunkSize + 1) * d₀.chunkSize < content.length :=
      (lt_divideRoundUp_iff h.size_pos).mp (by omega)
    rw [Nat.succ_mul] at hnext
    omega
  obtain ⟨p, hdata, hoff, hp⟩ : ∃ p : FilePage,
      p.data = chunkOf d₀.chunkSize content (pos / d₀.chunkSize) ∧ p.offset = pos % d₀.chunkSize ∧
        p = ⟨p.data, p.offset, false⟩ := ⟨⟨_, _, false⟩, rfl, rfl, rfl⟩
  have hinside : p.offset < p.data.length := by
    rw [hoff, hdata, hlen]
    omega
  refine ⟨{ f with n := pos / d₀.chunkSize, page := some p }, p, ?_, ?_, rfl, hinside⟩
  · simp only [refreshPage, h.doc, FileDoc.withContent, h.pos_eq, if_neg hfew, if_neg hlast,
      h.stored _ hk, if_neg hfull]
    rw [if_neg (by omega), hp, hdata, hoff]
  · constructor
    · exact h.size_pos
    · exact h.doc
    · exact h.bound
    · exact h.stored
    · exact h.pos_eq
    · exact h.le
    · rintro p' ⟨⟩
      exact ⟨pos / d₀.chunkSize, hdata, by rw [hoff, hdiv], hinside.le⟩

theorem ReadAt.read (h : ReadAt d₀ content s pos f) {p : FilePage} (hpage : f.page = some p)
    (want : ℕ) :
    ∃ more p', p.read want = some (more, p') ∧ more = (content.drop pos).take more.length ∧
      more.length = min want (p.data.length - p.offset) ∧
      ReadAt d₀ content s (pos + more.length)
        { f with page := some p', pos := f.pos + more.length } := by
  obtain ⟨k, hdata, hpos, hoff⟩ := h.page p hpage
  have hlen : ((p.data.drop p.offset).take want).length = min want (p.data.length - p.offset) := by
    rw [List.length_take, List.length_drop]
  have hsize := length_chunkOf d₀.chunkSize content k
  rw [← hdata] at hsize
  refine ⟨(p.data.drop p.offset).take want,
    ⟨p.data, p.offset + ((p.data.drop p.offset).take want).length, p.isDirty⟩, ?_, ?_, hlen, ?_⟩
  · rw [FilePage.read, if_neg (Nat.not_lt_of_le hoff)]
  · have hdrop : p.data.drop p.offset = (content.drop pos).take (d₀.chunkSize - p.offset) := by
      rw [hdata, chunkOf, List.drop_take, List.drop_drop, hpos]
    rw [hdrop, List.take_take, List.length_take, ← List.take_take, ← List.take_take,
      List.take_length, List.take_take]
  · constructor
    · exact h.size_pos
    · exact h.doc
    · exact h.bound
    · exact h.stored
    · simp only [h.pos_eq]
    · have := h.le
      omega
    · rintro p' ⟨⟩
      refine ⟨k, hdata, ?_, ?_⟩
      · simp only
        omega
      · simp only [hlen]
        omega

/-- The loop returns as many bytes as are wanted, or all up to the end of the file. Each page after
the first has something to read, so there are at most `want + 2` rounds. -/
theorem ReadAt.readvLoop (fuel : ℕ) (bytes : List UInt8) (h : ReadAt d₀ content s pos f)
    {p : FilePage} (hpage : f.page = some p)
    (hfuel : want + 1 < fuel ∨ (want < fuel ∧ p.offset < p.data.length)) :
    ∃ f', readvLoop s fuel want bytes f =
        some (some (bytes ++ (content.drop pos).take want), f') ∧
      ReadAt d₀ content s (min (pos + want) content.length) f' := by
  induction fuel generalizing want bytes pos f p with
  | zero => omega
  | succ fuel ih =>
    obtain ⟨more, p', hread, hmore, hlen, hnext⟩ := h.read hpage want
    rw [Mongolite.readvLoop]
    simp only [hpage, Option.bind_some, hread]
    have hle := hnext.le
    split_ifs with hall hend
    · subst hall
      exact ⟨_, by rw [← hmore], by rwa [Nat.min_eq_left hle]⟩
    · have hpos : content.length = pos + more.length := by
        have := hnext.pos_eq
        rw [h.doc] at hend
        exact hend.trans this
      have hrest : (content.drop pos).take want = more := by
        rw [hmore, List.take_of_length_le, List.take_of_length_le]
        all_goals
          rw [List.length_drop]
          omega
      refine ⟨_, by rw [hrest], ?_⟩
      rwa [Nat.min_eq_right (by omega), hpos]
    · have hlt : pos + more.length < content.length := by
        refine Nat.lt_of_le_of_ne hle ?_
        intro heq
        refine hend ?_
        rw [h.doc]
        exact heq.symm.trans hnext.pos_eq.symm
      obtain ⟨f', p'', hrefresh, hat, hpage', hinside⟩ := hnext.refresh hlt
      have hless : want - more.length < fuel := by omega
      obtain ⟨f'', hrun, hat'⟩ := ih (bytes ++ more) hat hpage' (.inr ⟨hless, hinside⟩)
      have hsplit : (content.drop pos).take want =
          more ++ (content.drop (pos + more.length)).take (want - more.length) := by
        have hwant : want = more.length + (want - more.length) := by omega
        conv_lhs => rw [hwant, List.take_add, ← hmore, List.drop_drop]
      refine ⟨f'', ?_, ?_⟩
      · simp only [hrefresh]
        rw [hrun, List.append_assoc, hsplit]
      · rwa [Nat.add_assoc, Nat.add_sub_cancel' (by omega)] at hat'

theorem ReadAt.readv (h : ReadAt d₀ content s pos f) (count : ℕ) :
    ∃ f', mongocGridfsFileReadv s count f = some (some ((content.drop pos).take count), f') ∧
      ReadAt d₀ content s (min (pos + count) content.length) f' := by
  unfold mongocGridfsFileReadv
  simp only [h.pos_eq, h.doc, FileDoc.withContent]
  split_ifs with hend
  · have hpos : pos = content.length := Nat.le_antisymm h.le hend
    refine ⟨f, by rw [hpos, List.drop_length, List.take_nil], ?_⟩
    rwa [Nat.min_eq_right (by omega), ← hpos]
  · have hpage : ∃ f' p, currentPage s f = (true, f') ∧ ReadAt d₀ content s pos f' ∧
        f'.page = some p := by
      unfold currentPage
      cases hp : f.page with
      | some p => exact ⟨f, p, by simp, h, hp⟩
      | none =>
        obtain ⟨f', p, hrefresh, hat, hp', -⟩ := h.refresh (Nat.lt_of_not_le hend)
        exact ⟨f', p, by simpa using hrefresh, hat, hp'⟩
    obtain ⟨f', p, hcurrent, hat, hp⟩ := hpage
    simp only [hcurrent]
    exact hat.readvLoop (count + 2) [] hp (.inl (by omega))

/-! ## Whole files -/

theorem Saved.readAt {old : List FileDoc} {x : FileIO} (h : Saved old d₀ content x) :
    ReadAt d₀ content x.2 0 (openFile (d₀.withContent content)) where
  size_pos := h.size_pos
  doc := rfl
  bound := h.bound
  stored := h.stored
  pos_eq := rfl
  le := Nat.zero_le _
  page := by rintro p ⟨⟩

theorem ReadAt.readMore (h : ReadAt d₀ content s pos f) (count : ℕ) :
    ∃ buf f', mongocGridfsFileReadv s count f = some (some buf, f') ∧
      buf.length = min count (content.length - pos) ∧
      content.take pos ++ buf = content.take (pos + buf.length) ∧
      ReadAt d₀ content s (pos + buf.length) f' := by
  obtain ⟨f', hread, hat⟩ := h.readv count
  have hle := h.le
  have hlen : ((content.drop pos).take count).length = min count (content.length - pos) := by
    rw [List.length_take, List.length_drop]
  have hnext : min (pos + count) content.length =
      pos + ((content.drop pos).take count).length := by omega
  rw [hnext] at hat
  refine ⟨_, f', hread, hlen, ?_, hat⟩
  rw [List.take_add, hlen, ← List.length_drop, ← List.take_take, List.take_length]

theorem ReadAt.readChunks (fuel : ℕ) (h : ReadAt d₀ content s pos f)
    (hfuel : content.length - pos < fuel) :
    readChunks s fuel (content.length - pos : ℕ) (content.take pos) f = some (.ok content) := by
  induction fuel generalizing pos f with
  | zero => omega
  | succ fuel ih =>
    rw [Mongolite.readChunks]
    split_ifs with hmore
    · obtain ⟨buf, f', hread, hlen, happend, hat⟩ := h.readMore readBufsize
      have hbuf : 0 < readBufsize := by decide
      have hrest : ((content.length - pos : ℕ) : ℤ) - buf.length =
          (content.length - (pos + buf.length) : ℕ) := by omega
      simp only [rStreamReadChunk, hread]
      rw [if_neg (by omega), hrest, happend]
      exact ih hat (by omega)
    · rw [List.take_of_length_le (by omega)]

theorem ReadAt.downloadChunks (fuel : ℕ) (h : ReadAt d₀ content s pos f)
    (hfuel : content.length - pos < fuel) :
    downloadChunks s fuel (content.take pos) f = some (.ok content) := by
  induction fuel generalizing pos f with
  | zero => omega
  | succ fuel ih =>
    obtain ⟨buf, f', hread, hlen, happend, hat⟩ := h.readMore 4096
    rw [Mongolite.downloadChunks]
    simp only [hread]
    split_ifs with hempty
    · rw [List.take_of_length_le (by omega)]
    · rw [happend]
      exact ih hat (by omega)

end Mongolite
