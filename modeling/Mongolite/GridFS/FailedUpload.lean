import Mongolite.GridFS.FailedWrite

/-! # Failed uploads

An upload that fails gives its file up without saving it, so the document is
left behind only if a flush has inserted it before, or if an earlier file of the
same call was uploaded.
-/

namespace Mongolite

variable {fate : ℕ → Fate} {old : List FileDoc} {d₀ : FileDoc} {id : ℕ} {content : List UInt8}
  {s : GridServer} {x x' : FileIO} {b : Bool}

def UploadArgs.ReadFails (args : UploadArgs) : Prop := args.readError = true ∧ [] ∉ args.pieces

/-- When an upload leaves a document behind; the first update after it is the `n`th. -/
def UploadArgs.LeavesFile (fate : ℕ → Fate) (n : ℕ) (args : UploadArgs) : Prop :=
  args.opening = none ∧
    if delivered args.pieces = [] then ¬ args.ReadFails ∧ (fate n).isCarriedOut = true
    else FlushInserts fate n ∧
      ¬ (args.ReadFails ∧ (delivered args.pieces).length ≤ defaultChunkSize)

theorem Unsent.seekStart (h : Unsent s d₀ content x) (hrun : seekStart fate x = (b, x')) :
    b = true ∧ Pending s d₀.id (content ≠ []) x' := by
  unfold Mongolite.seekStart at hrun
  rw [if_neg (not_not_intro h.n_eq)] at hrun
  cases hrun
  refine ⟨rfl, h.pending.id_eq, h.pending.files, h.pending.sent, h.pending.dirty, ?_⟩
  rw [← h.pending.page]
  cases x.1.page with
  | none => rfl
  | some p => rfl

theorem Unsent.createFileFromStream {readError : Bool} {pieces : List (List UInt8)}
    (h : Unsent s d₀ content x)
    (hrun : createFileFromStream fate readError pieces x = some (b, x')) :
    ((content ++ delivered pieces).length ≤ d₀.chunkSize ∧
      ((b = true ∧ ¬ (readError = true ∧ [] ∉ pieces) ∧
          Pending s d₀.id (content ++ delivered pieces ≠ []) x') ∨
        (b = false ∧ (readError = true ∧ [] ∉ pieces) ∧ x'.2.files = s.files))) ∨
      (d₀.chunkSize < (content ++ delivered pieces).length ∧
        FirstFlush fate s d₀.id (b = false) x') := by
  induction pieces generalizing content x with
  | nil =>
    have hsame : content ++ delivered [] = content := List.append_nil content
    rw [hsame]
    rw [Mongolite.createFileFromStream] at hrun
    split_ifs at hrun with herror
    · cases hrun
      exact .inl ⟨h.length_le, .inr ⟨rfl, ⟨herror, List.not_mem_nil⟩, h.pending.files⟩⟩
    · obtain ⟨hb, hpending⟩ := h.seekStart (Option.some.inj hrun)
      exact .inl ⟨h.length_le, .inl ⟨hb, fun hfails => herror hfails.1, hpending⟩⟩
  | cons buf pieces ih =>
    rw [Mongolite.createFileFromStream] at hrun
    split_ifs at hrun with hbuf
    · subst hbuf
      have hsame : content ++ delivered ([] :: pieces) = content := List.append_nil content
      rw [hsame]
      obtain ⟨hb, hpending⟩ := h.seekStart (Option.some.inj hrun)
      refine .inl ⟨h.length_le, .inl ⟨hb, ?_, hpending⟩⟩
      exact fun hfails => hfails.2 List.mem_cons_self
    · have hmem : [] ∉ buf :: pieces ↔ [] ∉ pieces := by
        rw [List.mem_cons, or_iff_right (Ne.symm hbuf)]
      rw [delivered_cons hbuf, ← List.append_assoc, hmem]
      split at hrun
      · cases hrun
      · rename_i hwrite
        cases hrun
        obtain ⟨-, hlen, -⟩ | ⟨hlong, hflush⟩ := h.writev hbuf hwrite
        · cases hlen
        · refine .inr ⟨?_, hflush.imp fun _ => rfl⟩
          rw [List.length_append]
          omega
      · rename_i n x₁ hwrite
        obtain ⟨-, -, hunsent⟩ | ⟨hlong, hflush⟩ := h.writev hbuf hwrite
        · exact ih hunsent hrun
        · refine .inr ⟨by rw [List.length_append]; omega, ?_⟩
          cases hflush with
          | stuck hfate hfailed _ => cases hfailed
          | dropped hfate hnext hfailed _ _ => cases hfailed
          | inserted hinserts hfile => exact .inserted hinserts (hfile.createFileFromStream hrun)

/-- The first flush of an upload that has bytes decides what it leaves. -/
theorem FirstFlush.upload {failed : Prop} {args : UploadArgs} {r : Except String FileDoc}
    (h : FirstFlush fate s id failed x) (hbytes : delivered args.pieces ≠ [])
    (hnot : ¬ (args.ReadFails ∧ (delivered args.pieces).length ≤ defaultChunkSize))
    (hraise : failed → ∃ e, r = .error e) (hopening : args.opening = none) :
    (args.LeavesFile fate s.sent ∧ HasFile id x.2) ∨
      (¬ args.LeavesFile fate s.sent ∧ (∃ e, r = .error e) ∧ x.2.files = s.files) := by
  unfold UploadArgs.LeavesFile
  rw [if_neg hbytes]
  cases h with
  | stuck hfate hfailed h => exact .inr ⟨fun h => hfate h.2.1.1, hraise hfailed, h.files⟩
  | dropped hfate hnext hfailed hfiles _ =>
    refine .inr ⟨?_, hraise hfailed, hfiles⟩
    rintro ⟨-, ⟨-, hins⟩, -⟩
    simp [hnext] at hins
  | inserted hinserts hfile => exact .inl ⟨⟨hopening, hinserts, hnot⟩, hfile⟩

theorem Pending.setFields {bytes : Prop} (h : Pending s id bytes x)
    (contentType metadata : Option String) :
    Pending s id bytes (metadata.elim (contentType.elim x.1 x.1.setContentType)
      (contentType.elim x.1 x.1.setContentType).setMetadata, x.2) := by
  cases contentType with
  | none =>
    cases metadata with
    | none => exact h
    | some metadata => exact ⟨h.id_eq, h.files, h.sent, rfl, h.page⟩
  | some contentType =>
    cases metadata with
    | none => exact ⟨h.id_eq, h.files, h.sent, rfl, h.page⟩
    | some metadata => exact ⟨h.id_eq, h.files, h.sent, rfl, h.page⟩

theorem Pending.saveUpload {args : UploadArgs} {r : Except String FileDoc}
    (h : Pending s id (delivered args.pieces ≠ []) x) (hopening : args.opening = none)
    (hread : ¬ args.ReadFails) (hrun : mongocGridfsFileSave fate x = (b, x'))
    (hraise : b = false → ∃ e, r = .error e) :
    (args.LeavesFile fate s.sent ∧ HasFile id x'.2) ∨
      (¬ args.LeavesFile fate s.sent ∧ (∃ e, r = .error e) ∧ x'.2.files = s.files) := by
  by_cases hbytes : delivered args.pieces = []
  · obtain ⟨hfate, hfile⟩ | ⟨hfate, hb, hfiles, -⟩ := h.saveEmpty (not_not_intro hbytes) hrun
    · refine .inl ⟨⟨hopening, ?_⟩, hfile⟩
      rw [if_pos hbytes]
      exact ⟨hread, hfate⟩
    · refine .inr ⟨?_, hraise hb, hfiles⟩
      rintro ⟨-, hleaves⟩
      rw [if_pos hbytes, hfate] at hleaves
      exact Bool.noConfusion hleaves.2
  · exact (h.saveBytes hbytes hrun).upload hbytes (fun h => hread h.1) hraise hopening

/-- An upload leaves a document, or it fails and leaves none. -/
theorem rMongoGridfsUpload_spec {uploadDate : ℤ} {args : UploadArgs} {r : Except String FileDoc}
    {s' : GridServer} (hrun : rMongoGridfsUpload fate id uploadDate args s = some (r, s')) :
    (args.LeavesFile fate s.sent ∧ HasFile id s') ∨
      (¬ args.LeavesFile fate s.sent ∧ (∃ e, r = .error e) ∧ s'.files = s.files) := by
  have hunsent := unsent_mongocGridfsFileNew id uploadDate args.name s
  unfold rMongoGridfsUpload at hrun
  cases hopening : args.opening with
  | some e =>
    simp only [hopening] at hrun
    cases hrun
    exact .inr ⟨fun h => absurd h.1 (by simp [hopening]), ⟨e, rfl⟩, rfl⟩
  | none =>
    have hlarge : defaultChunkSize < (delivered args.pieces).length →
        delivered args.pieces ≠ [] ∧
          ¬ (args.ReadFails ∧ (delivered args.pieces).length ≤ defaultChunkSize) := by
      intro hlong
      refine ⟨List.ne_nil_of_length_pos (by omega), fun h => ?_⟩
      omega
    simp only [hopening] at hrun
    split at hrun
    · cases hrun
    · rename_i x hcreate
      cases hrun
      obtain ⟨hle, ⟨hb, -⟩ | ⟨-, hfails, hfiles⟩⟩ | ⟨hlong, hflush⟩ :=
        hunsent.createFileFromStream hcreate
      · cases hb
      · refine .inr ⟨?_, ⟨_, rfl⟩, hfiles⟩
        rintro ⟨-, hleaves⟩
        split_ifs at hleaves
        · exact hleaves.1 hfails
        · exact hleaves.2 ⟨hfails, hle⟩
      · obtain ⟨hbytes, hnot⟩ := hlarge hlong
        exact hflush.upload hbytes hnot (fun _ => ⟨_, rfl⟩) hopening
    · rename_i x hcreate
      obtain ⟨b, x', hsave, rfl, hraise⟩ : ∃ b x', mongocGridfsFileSave fate
          (args.metadata.elim (args.contentType.elim x.1 x.1.setContentType)
            (args.contentType.elim x.1 x.1.setContentType).setMetadata, x.2) = (b, x') ∧
          x'.2 = s' ∧ (b = false → ∃ e, r = .error e) := by
        split at hrun
        · rename_i hsave
          cases hrun
          exact ⟨_, _, hsave, rfl, fun h => absurd h Bool.noConfusion⟩
        · rename_i hsave
          cases hrun
          exact ⟨_, _, hsave, rfl, fun _ => ⟨_, rfl⟩⟩
      obtain ⟨hle, ⟨-, hread, hpending⟩ | ⟨hb, -⟩⟩ | ⟨hlong, hflush⟩ :=
        hunsent.createFileFromStream hcreate
      · have hpending := hpending.setFields args.contentType args.metadata
        rw [List.nil_append] at hpending
        exact hpending.saveUpload hopening hread hsave hraise
      · cases hb
      · obtain ⟨hbytes, hnot⟩ := hlarge hlong
        cases hflush with
        | stuck _ hfailed _ => cases hfailed
        | dropped _ _ hfailed _ _ => cases hfailed
        | inserted hinserts hfile =>
          have hkept : HasFile id x'.2 := by
            refine HasFile.save ?_ hsave
            exact hfile
          have hinserted : FirstFlush fate s id False x' := .inserted hinserts hkept
          exact hinserted.upload hbytes hnot False.elim hopening

/-- When the upload of some files leaves a document behind: the first one does. -/
def UploadLeavesFile (fate : ℕ → Fate) (n : ℕ) (early : Option String)
    (files : List (ℕ × ℤ × UploadArgs)) : Prop :=
  early = none ∧ ∃ file ∈ files.head?, file.2.2.LeavesFile fate n

theorem mongoGridfsUpload_sameFiles_iff {early : Option String}
    {files : List (ℕ × ℤ × UploadArgs)} {r : Except String (List FileDoc)} {s' : GridServer}
    {e : String} (hnew : ∀ file ∈ files, ∀ d ∈ s.files, d.id ≠ file.1)
    (hrun : mongoGridfsUpload fate early files s = some (r, s')) (hr : r = .error e) :
    SameFiles s s' ↔ ¬ UploadLeavesFile fate s.sent early files := by
  unfold mongoGridfsUpload at hrun
  unfold UploadLeavesFile
  cases early with
  | some e =>
    cases hrun
    exact iff_of_true (fun d => Iff.rfl) (by simp)
  | none =>
    cases files with
    | nil =>
      cases hrun
      cases hr
    | cons file files =>
      have hfresh := hnew file List.mem_cons_self
      have hhead : (none = (none : Option String) ∧ ∃ f ∈ (file :: files).head?,
          f.2.2.LeavesFile fate s.sent) ↔ file.2.2.LeavesFile fate s.sent := by simp
      rw [hhead]
      simp only [uploadAll] at hrun
      rcases hfile : rMongoGridfsUpload fate file.1 file.2.1 file.2.2 s with _ | ⟨r₁, s₁⟩
      · simp [hfile] at hrun
      · obtain ⟨hleaves, hkept⟩ | ⟨hnone, ⟨e₁, rfl⟩, hfiles⟩ := rMongoGridfsUpload_spec hfile
        · have hkept' : HasFile file.1 s' := by
            cases r₁ with
            | error e₁ =>
              simp only [hfile] at hrun
              cases hrun
              exact hkept
            | ok doc =>
              simp only [hfile] at hrun
              exact hkept.uploadAll hrun
          exact iff_of_false (hkept'.not_sameFiles hfresh) (not_not_intro hleaves)
        · simp only [hfile] at hrun
          cases hrun
          exact iff_of_true (sameFiles_of_eq hfiles) hnone

/-! ## Both calls -/

theorem Written.createFileFromStream {m : ℕ} (fate : ℕ → Fate) (readError : Bool)
    (pieces : List (List UInt8)) (h : Written old d₀ m content x) :
    ∃ r, createFileFromStream fate readError pieces x = some r := by
  induction pieces generalizing m content x with
  | nil =>
    rw [Mongolite.createFileFromStream]
    split_ifs
    · exact ⟨_, rfl⟩
    · exact ⟨_, rfl⟩
  | cons buf pieces ih =>
    obtain ⟨len, x', hrun, hspec⟩ := h.writevLoop buf (buf.length + 2) 0
      (.inl (Nat.lt_succ_self _))
    rw [Mongolite.createFileFromStream, mongocGridfsFileWritev, hrun]
    split_ifs
    · exact ⟨_, rfl⟩
    · cases len with
      | none => exact ⟨_, rfl⟩
      | some n =>
        obtain ⟨-, -, m', hwritten⟩ := hspec n rfl
        exact ih hwritten

theorem mongoGridfsUpload_ends (fate : ℕ → Fate) (early : Option String)
    (files : List (ℕ × ℤ × UploadArgs)) (s : GridServer) :
    ∃ r s', mongoGridfsUpload fate early files s = some (r, s') := by
  have hone : ∀ (id : ℕ) (uploadDate : ℤ) (args : UploadArgs) (s : GridServer),
      ∃ r s', rMongoGridfsUpload fate id uploadDate args s = some (r, s') := by
    intro id uploadDate args s
    have hwritten := (unsent_mongocGridfsFileNew id uploadDate args.name s).written
    obtain ⟨⟨b, x⟩, hcreate⟩ := hwritten.createFileFromStream fate args.readError args.pieces
    unfold rMongoGridfsUpload
    cases args.opening with
    | some e => exact ⟨_, _, rfl⟩
    | none =>
      simp only [hcreate]
      cases b with
      | false => exact ⟨_, _, rfl⟩
      | true =>
        simp only
        split
        · exact ⟨_, _, rfl⟩
        · exact ⟨_, _, rfl⟩
  have hall : ∀ out s, ∃ r s', uploadAll fate files out s = some (r, s') := by
    induction files with
    | nil => exact fun out s => ⟨_, _, rfl⟩
    | cons file files ih =>
      intro out s
      obtain ⟨r, s', hrun⟩ := hone file.1 file.2.1 file.2.2 s
      cases r with
      | error e => exact ⟨.error e, s', by simp only [uploadAll, hrun]⟩
      | ok doc =>
        obtain ⟨r', s'', hrest⟩ := ih (out ++ [doc]) s'
        exact ⟨r', s'', by simp only [uploadAll, hrun, hrest]⟩
  cases early with
  | some e => exact ⟨_, _, rfl⟩
  | none => exact hall [] s

/-- Both calls end. Where they fail, the file documents are the same as before, and for a write they
are so after its stream is finalized too, exactly where the first updates do not insert the document
of a file. -/
theorem failed_transfers_sameFiles_iff (fate : ℕ → Fate) (id : ℕ) (uploadDate : ℤ)
    (args : WriteArgs) (early : Option String) (files : List (ℕ × ℤ × UploadArgs)) (s : GridServer)
    (hnew : ∀ d ∈ s.files, d.id ≠ id) (hnews : ∀ file ∈ files, ∀ d ∈ s.files, d.id ≠ file.1) :
    (∃ r, mongoGridfsWriteStream fate id uploadDate args s = some r ∧
      ∀ e, r.outcome = .error e →
        ((SameFiles s r.server ∧ SameFiles s (r.afterGc fate)) ↔
          ¬ args.LeavesFile fate s.sent)) ∧
      ∃ r s', mongoGridfsUpload fate early files s = some (r, s') ∧
        ∀ e, r = .error e → (SameFiles s s' ↔ ¬ UploadLeavesFile fate s.sent early files) := by
  obtain ⟨r, hwrite, -⟩ := mongoGridfsWriteStream_spec fate id uploadDate args s
  obtain ⟨r', s', hupload⟩ := mongoGridfsUpload_ends fate early files s
  refine ⟨⟨r, hwrite, fun e he => ?_⟩, r', s', hupload, fun e he => ?_⟩
  · exact mongoGridfsWriteStream_sameFiles_iff hnew hwrite he
  · exact mongoGridfsUpload_sameFiles_iff hnews hupload he

def noConnection : WriteArgs :=
  ⟨none, "data", none, none, ⟨some "inherits(con, \"connection\") is not TRUE", [], none⟩, none⟩

theorem failed_transfers_sameFiles_refused :
    ∃ r, mongoGridfsWriteStream (fun _ => .refused "not authorized") 1 0 noConnection
        ⟨fun _ _ => none, [], 0⟩ = some r ∧
      SameFiles ⟨fun _ _ => none, [], 0⟩ (r.afterGc fun _ => .refused "not authorized") := by
  obtain ⟨⟨r, hrun, hsame⟩, -⟩ := failed_transfers_sameFiles_iff
    (fun _ => .refused "not authorized") 1 0 noConnection none [] ⟨fun _ _ => none, [], 0⟩
    (by simp) (by simp)
  have hr : r = ⟨.error _, some _, _⟩ := Option.some.inj (hrun.symm.trans rfl)
  refine ⟨r, hrun, ((hsame _ (by rw [hr])).mpr ?_).2⟩
  rintro ⟨-, hinserts⟩
  simp [Inserts, Source.bytes, noConnection, Fate.isCarriedOut] at hinserts

/-- The document of an empty file appears once the stream is finalized. -/
theorem failed_write_leaves_file :
    ∃ r e, mongoGridfsWriteStream (fun _ => .done) 1 0 noConnection ⟨fun _ _ => none, [], 0⟩ =
        some r ∧ r.outcome = .error e ∧
      ¬ SameFiles ⟨fun _ _ => none, [], 0⟩ (r.afterGc fun _ => .done) := by
  refine ⟨_, _, rfl, rfl, ?_⟩
  intro hsame
  exact absurd ((hsame (mongocGridfsFileNew 1 0 "data").doc).mp (List.Mem.head _)) List.not_mem_nil

end Mongolite
