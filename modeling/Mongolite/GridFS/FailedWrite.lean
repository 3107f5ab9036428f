import Mongolite.GridFS.FirstFlush

/-! # Failed writes from a connection

A write that fails leaves its stream to the garbage collector, which saves it if
it is to be saved still. The file documents stay as they were exactly where no
update up to then inserts the document of the file.
-/

namespace Mongolite

variable {fate : ℕ → Fate} {d₀ : FileDoc} {id : ℕ} {content : List UInt8} {s : GridServer}
  {x x' : FileIO} {b : Bool}

/-- The loop of a write ends before anything is sent, after a first flush, or by saving an empty
file; `tried` says that more is written than a page holds or that the end of the connection is
reached. -/
inductive WriteEnd (fate : ℕ → Fate) (s : GridServer) (id : ℕ) (bytes : List UInt8)
    (tried failed : Prop) (x : FileIO) : Prop
  | pending (hbytes : ¬ tried) (hfailed : failed) (h : Pending s id (bytes ≠ []) x)
  | flushed (hbytes : bytes ≠ []) (htried : tried) (h : FirstFlush fate s id failed x)
  | inserted (hbytes : bytes = []) (hfate : (fate s.sent).isCarriedOut = true)
      (hfile : HasFile id x.2)
  | refused (hbytes : bytes = []) (hfate : (fate s.sent).isCarriedOut = false) (hfailed : failed)
      (hfiles : x.2.files = s.files) (hclean : x.1.isDirty = false)

theorem Unsent.saveChunk {r : Except String ℕ} {tried failed : Prop} (h : Unsent s d₀ content x)
    (hrun : rStreamWriteChunk fate [] x = some (r, x')) (htried : tried)
    (hraise : ∀ e, r = .error e → failed) : WriteEnd fate s d₀.id content tried failed x' := by
  unfold rStreamWriteChunk at hrun
  rw [if_neg (by simp)] at hrun
  obtain ⟨b, hsave, hfailed⟩ : ∃ b, mongocGridfsFileSave fate x = (b, x') ∧
      (b = false → failed) := by
    split at hrun
    · rename_i hsave
      cases hrun
      exact ⟨true, hsave, fun h => absurd h Bool.noConfusion⟩
    · rename_i hsave
      cases hrun
      exact ⟨false, hsave, fun _ => hraise _ rfl⟩
  by_cases hbytes : content = []
  · obtain ⟨hfate, hfile⟩ | ⟨hfate, hb, hfiles, hclean⟩ :=
      h.pending.saveEmpty (not_not_intro hbytes) hsave
    · exact .inserted hbytes hfate hfile
    · exact .refused hbytes hfate (hfailed hb) hfiles hclean
  · exact .flushed hbytes htried ((h.pending.saveBytes hbytes hsave).imp hfailed)

theorem Unsent.rStreamWriteChunk {buf : List UInt8} {r : Except String ℕ}
    (h : Unsent s d₀ content x) (hbuf : buf ≠ [])
    (hrun : rStreamWriteChunk fate buf x = some (r, x')) :
    (r = .ok buf.length ∧ Unsent s d₀ (content ++ buf) x') ∨
      (d₀.chunkSize < (content ++ buf).length ∧
        FirstFlush fate s d₀.id (∃ e, r = .error e) x') := by
  unfold Mongolite.rStreamWriteChunk at hrun
  rw [if_pos hbuf] at hrun
  split at hrun
  · cases hrun
  · rename_i hwrite
    cases hrun
    obtain ⟨-, hlen, -⟩ | ⟨hlong, hflush⟩ := h.writev hbuf hwrite
    · cases hlen
    · exact .inr ⟨hlong, hflush.imp fun _ => ⟨_, rfl⟩⟩
  · rename_i len x₁ hwrite
    obtain ⟨-, hlen, hunsent⟩ | ⟨hlong, hflush⟩ := h.writev hbuf hwrite
    · cases hlen
      rw [if_neg (Nat.lt_irrefl _)] at hrun
      cases hrun
      exact .inl ⟨rfl, hunsent⟩
    · have hsome : FirstFlush fate s d₀.id False x₁ := hflush.imp (by simp)
      split_ifs at hrun
      · cases hrun
        exact .inr ⟨hlong, hsome.imp False.elim⟩
      · cases hrun
        exact .inr ⟨hlong, hsome.imp False.elim⟩

theorem Unsent.writePieces {ending : Option String} {pieces : List (List UInt8)} {total : ℕ}
    {r : Except String ℕ} (h : Unsent s d₀ content x)
    (hrun : writePieces fate ending pieces total x = some (r, x')) :
    WriteEnd fate s d₀.id (content ++ delivered pieces)
      (([] ∈ pieces ∨ ending = none) ∨ d₀.chunkSize < (content ++ delivered pieces).length)
      (∃ e, r = .error e) x' := by
  induction pieces generalizing content total x with
  | nil =>
    have hsame : content ++ delivered [] = content := List.append_nil content
    rw [hsame]
    unfold Mongolite.writePieces at hrun
    cases ending with
    | some e =>
      cases hrun
      have := h.length_le
      exact .pending (by simpa using this) ⟨e, rfl⟩ h.pending
    | none =>
      simp only at hrun
      split at hrun
      · rename_i hchunk
        cases hrun
        exact h.saveChunk hchunk (.inl (.inr rfl)) (by rintro e ⟨⟩)
      · exact h.saveChunk hrun (.inl (.inr rfl)) fun e he => ⟨e, he⟩
  | cons buf pieces ih =>
    rw [Mongolite.writePieces] at hrun
    by_cases hbuf : buf = []
    · subst hbuf
      have hsame : content ++ delivered ([] :: pieces) = content := List.append_nil content
      have hend : [] ∈ [] :: pieces := List.mem_cons_self
      rw [hsame]
      split at hrun
      · rename_i hchunk
        cases hrun
        exact h.saveChunk hchunk (.inl (.inl hend)) (by rintro e ⟨⟩)
      · exact h.saveChunk hrun (.inl (.inl hend)) fun e he => ⟨e, he⟩
    · have hmem : [] ∈ buf :: pieces ↔ [] ∈ pieces := by
        rw [List.mem_cons, or_iff_right (Ne.symm hbuf)]
      have hbytes : content ++ buf ++ delivered pieces ≠ [] := by simp [hbuf]
      have hmore : d₀.chunkSize < (content ++ buf).length →
          d₀.chunkSize < (content ++ buf ++ delivered pieces).length := by
        intro hlong
        rw [List.length_append]
        omega
      rw [delivered_cons hbuf, ← List.append_assoc, hmem]
      split at hrun
      · rename_i len x₁ hchunk
        rw [if_neg hbuf] at hrun
        obtain ⟨-, hunsent⟩ | ⟨hlong, hflush⟩ := h.rStreamWriteChunk hbuf hchunk
        · exact ih hunsent hrun
        · refine .flushed hbytes (.inr (hmore hlong)) ?_
          cases hflush with
          | stuck _ hfailed _ => simp at hfailed
          | dropped _ _ hfailed _ _ => simp at hfailed
          | inserted hinserts hfile => exact .inserted hinserts (hfile.writePieces hrun)
      · rename_i hraised
        obtain ⟨rfl, -⟩ | ⟨hlong, hflush⟩ := h.rStreamWriteChunk hbuf hrun
        · exact absurd hrun (hraised _ _)
        · exact .flushed hbytes (.inr (hmore hlong)) hflush

theorem Pending.finFilestream {bytes : Prop} (fate : ℕ → Fate) (h : Pending s id bytes x)
    (hbytes : bytes) :
    if FlushInserts fate s.sent then HasFile id (finFilestream fate x)
    else (finFilestream fate x).files = s.files := by
  cases h.saveBytes hbytes (Eq.refl (mongocGridfsFileSave fate x)) with
  | stuck hfate _ h' =>
    rw [if_neg fun hins => hfate hins.1]
    exact h'.files
  | dropped hfate hnext _ hfiles _ =>
    rw [if_neg fun hins => by simp [hins.2] at hnext]
    exact hfiles
  | inserted hins hfile =>
    rw [if_pos hins]
    exact hfile

/-- When the first updates of a file leave its document behind: `tried` says whether the call sends
any of them. -/
def Inserts (fate : ℕ → Fate) (n : ℕ) (bytes : List UInt8) (tried : Prop) : Prop :=
  if bytes = [] then (fate n).isCarriedOut = true
  else FlushInserts fate n ∨ (tried ∧ fate n ≠ .done ∧ FlushInserts fate (n + 1))

theorem inserts_nil {n : ℕ} {tried : Prop} : Inserts fate n [] tried ↔ Inserts fate n [] False := by
  rw [Inserts, Inserts, if_pos rfl, if_pos rfl]

theorem WriteEnd.sameFiles_iff {bytes : List UInt8} {tried failed : Prop}
    (h : WriteEnd fate s id bytes tried failed x) (hnew : ∀ d ∈ s.files, d.id ≠ id) :
    (SameFiles s x.2 ∧ SameFiles s (finFilestream fate x)) ↔
      ¬ Inserts fate s.sent bytes tried := by
  unfold Inserts
  cases h with
  | inserted hbytes hfate hfile =>
    rw [if_pos hbytes]
    exact iff_of_false (fun h => hfile.not_sameFiles hnew h.1) (not_not_intro hfate)
  | refused hbytes hfate _ hfiles hclean =>
    rw [if_pos hbytes, finFilestream_clean hclean]
    exact iff_of_true ⟨sameFiles_of_eq hfiles, sameFiles_of_eq hfiles⟩ (by simp [hfate])
  | pending hnot _ h =>
    have hend := sameFiles_of_eq h.files
    split_ifs with hbytes
    · obtain ⟨hfate, hfile⟩ | ⟨hfate, -, hfiles, -⟩ :=
        h.saveEmpty (not_not_intro hbytes) (Eq.refl (mongocGridfsFileSave fate x))
      · exact iff_of_false (fun h => hfile.not_sameFiles hnew h.2) (not_not_intro hfate)
      · exact iff_of_true ⟨hend, sameFiles_of_eq hfiles⟩ (by simp [hfate])
    · have hfin := h.finFilestream fate hbytes
      split_ifs at hfin with hins
      · exact iff_of_false (fun h => hfin.not_sameFiles hnew h.2) (not_not_intro (.inl hins))
      · refine iff_of_true ⟨hend, sameFiles_of_eq hfin⟩ ?_
        rintro (hins' | ⟨htried, -, -⟩)
        · exact hins hins'
        · exact hnot htried
  | flushed hbytes htried h =>
    rw [if_neg hbytes]
    cases h with
    | stuck hfate _ h =>
      have hfin := h.finFilestream fate trivial
      split_ifs at hfin with hins
      · refine iff_of_false (fun h => hfin.not_sameFiles hnew h.2) ?_
        exact not_not_intro (.inr ⟨htried, hfate, hins⟩)
      · refine iff_of_true ⟨sameFiles_of_eq h.files, sameFiles_of_eq hfin⟩ ?_
        rintro (hins' | ⟨-, -, hins'⟩)
        · exact hfate hins'.1
        · exact hins hins'
    | dropped hfate hnext _ hfiles hclean =>
      rw [finFilestream_clean hclean]
      refine iff_of_true ⟨sameFiles_of_eq hfiles, sameFiles_of_eq hfiles⟩ ?_
      rintro (⟨-, hins⟩ | ⟨-, hne, -⟩)
      · simp [hnext] at hins
      · exact hne hfate
    | inserted hins hfile =>
      exact iff_of_false (fun h => hfile.not_sameFiles hnew h.1) (not_not_intro (.inl hins))

/-! ## A failed write -/

def Source.bytes (source : Source) : List UInt8 :=
  if source.opening.isSome then [] else delivered source.pieces

/-- When a write that fails leaves a document behind; the first update after it is the `n`th. -/
def WriteArgs.LeavesFile (fate : ℕ → Fate) (n : ℕ) (args : WriteArgs) : Prop :=
  args.early = none ∧ Inserts fate n args.source.bytes
    (([] ∈ args.source.pieces ∨ args.source.ending = none) ∨
      defaultChunkSize < args.source.bytes.length)

/-- A write that fails leaves the file documents as they were, at its end and after the stream is
finalized, exactly where the first updates do not insert the document of the file. -/
theorem mongoGridfsWriteStream_sameFiles_iff {uploadDate : ℤ} {args : WriteArgs} {r : WriteResult}
    {e : String} (hnew : ∀ d ∈ s.files, d.id ≠ id)
    (hrun : mongoGridfsWriteStream fate id uploadDate args s = some r) (hr : r.outcome = .error e) :
    (SameFiles s r.server ∧ SameFiles s (r.afterGc fate)) ↔ ¬ args.LeavesFile fate s.sent := by
  obtain ⟨contentType, metadata, hstream⟩ := rNewWriteStream_spec id uploadDate args
  have hunsent := unsent_rNewWriteStream id uploadDate args s
  have hid : (rNewWriteStream id uploadDate args).doc.id = id := by rw [hstream]
  have hsize : (rNewWriteStream id uploadDate args).doc.chunkSize = defaultChunkSize := by
    rw [hstream]
  unfold mongoGridfsWriteStream at hrun
  unfold WriteArgs.LeavesFile
  cases hearly : args.early with
  | some e =>
    simp only [hearly, Option.some.injEq] at hrun
    subst hrun
    exact iff_of_true ⟨fun d => Iff.rfl, fun d => Iff.rfl⟩ (by simp)
  | none =>
    rw [eq_self_iff_true, true_and]
    simp only [hearly] at hrun
    cases hopening : args.source.opening with
    | some e =>
      have hbytes : args.source.bytes = [] := by simp [Source.bytes, hopening]
      simp only [hopening, Option.some.injEq] at hrun
      subst hrun
      have hpending := hunsent.pending
      rw [hid] at hpending
      have hend : WriteEnd fate s id [] False True (rNewWriteStream id uploadDate args, s) :=
        .pending not_false trivial hpending
      rw [hbytes, inserts_nil]
      exact hend.sameFiles_iff hnew
    | none =>
      have hbytes : args.source.bytes = [] ++ delivered args.source.pieces := by
        simp [Source.bytes, hopening]
      simp only [hopening] at hrun
      split at hrun
      · cases hrun
      · rename_i hpieces
        cases hrun
        have hend := hunsent.writePieces hpieces
        rw [hid, hsize, ← hbytes] at hend
        exact hend.sameFiles_iff hnew
      · rename_i hpieces
        have hend := hunsent.writePieces hpieces
        rw [hid, hsize, ← hbytes] at hend
        split at hrun
        · cases hrun
          exact hend.sameFiles_iff hnew
        · cases hrun
          cases hr

end Mongolite
