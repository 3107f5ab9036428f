import Mongolite.GridFS.Streams
import Mongolite.GridFS.Writing

/-! # Files that stay

Nothing that a transfer does to the server removes a file document, so a file
whose document was inserted once is there after the call and after its stream is
finalized.
-/

namespace Mongolite

variable {fate : ℕ → Fate} {id : ℕ} {s : GridServer} {x x' : FileIO} {b : Bool}

def HasFile (id : ℕ) (s : GridServer) : Prop := ∃ d ∈ s.files, d.id = id

theorem HasFile.setFile (h : HasFile id s) (doc : FileDoc) : HasFile id (s.setFile doc) := by
  obtain ⟨d, hd, hid⟩ := h
  unfold GridServer.setFile
  split_ifs with hany
  · refine ⟨_, List.mem_map_of_mem hd, ?_⟩
    split_ifs with heq
    · exact heq.symm.trans hid
    · exact hid
  · exact ⟨d, List.mem_append_left _ hd, hid⟩

theorem hasFile_setFile (doc : FileDoc) (s : GridServer) : HasFile doc.id (s.setFile doc) :=
  ⟨doc, (setFile_spec doc s).1, rfl⟩

theorem HasFile.upsertFile (h : HasFile id x.2) (hrun : upsertFile fate x = (b, x')) :
    HasFile id x'.2 := by
  obtain ⟨-, -, hserver⟩ := upsertFile_cases hrun
  rw [hserver]
  split_ifs
  · exact HasFile.setFile h x.1.doc
  · exact h

theorem HasFile.flushPage (h : HasFile id x.2) (hrun : flushPage fate x = (b, x')) :
    HasFile id x'.2 := by
  obtain ⟨-, -, -, hfiles, -⟩ | ⟨-, -, hup⟩ | ⟨-, -, -, rfl⟩ := flushPage_cases hrun
  · rw [HasFile, hfiles]
    exact h
  · refine HasFile.upsertFile ?_ hup
    exact h
  · exact h

theorem HasFile.save (h : HasFile id x.2) (hrun : mongocGridfsFileSave fate x = (b, x')) :
    HasFile id x'.2 := by
  unfold mongocGridfsFileSave at hrun
  split_ifs at hrun
  · split at hrun
    · cases hrun
      exact h.flushPage ‹_›
    · exact (h.flushPage ‹_›).upsertFile hrun
  · exact h.upsertFile hrun
  · cases hrun
    exact h

theorem HasFile.finFilestream (h : HasFile id x.2) (fate : ℕ → Fate) :
    HasFile id (finFilestream fate x) :=
  h.save rfl

theorem HasFile.writevLoop {fuel written : ℕ} {src : List UInt8} {len : Option ℕ}
    (h : HasFile id x.2) (hrun : writevLoop fate fuel src written x = some (len, x')) :
    HasFile id x'.2 := by
  induction fuel generalizing src written x with
  | zero => simp [Mongolite.writevLoop] at hrun
  | succ fuel ih =>
    rw [Mongolite.writevLoop] at hrun
    split at hrun
    · cases hrun
      exact h
    · split at hrun
      · cases hrun
        exact h
      · dsimp only at hrun
        split_ifs at hrun
        · cases hrun
          exact h
        · split at hrun
          · rename_i hflush
            cases hrun
            refine HasFile.flushPage ?_ hflush
            exact h
          · rename_i hflush
            refine ih (HasFile.flushPage ?_ hflush) hrun
            exact h

theorem HasFile.rStreamWriteChunk {buf : List UInt8} {r : Except String ℕ} (h : HasFile id x.2)
    (hrun : rStreamWriteChunk fate buf x = some (r, x')) : HasFile id x'.2 := by
  unfold Mongolite.rStreamWriteChunk mongocGridfsFileWritev at hrun
  split_ifs at hrun
  · split at hrun
    · cases hrun
    · cases hrun
      exact h.writevLoop ‹_›
    · split_ifs at hrun
      · cases hrun
        exact h.writevLoop ‹_›
      · cases hrun
        exact h.writevLoop ‹_›
  · split at hrun
    · cases hrun
      exact h.save ‹_›
    · cases hrun
      exact h.save ‹_›

theorem HasFile.writePieces {ending : Option String} {pieces : List (List UInt8)} {total : ℕ}
    {r : Except String ℕ} (h : HasFile id x.2)
    (hrun : writePieces fate ending pieces total x = some (r, x')) : HasFile id x'.2 := by
  induction pieces generalizing total x with
  | nil =>
    unfold Mongolite.writePieces at hrun
    cases ending with
    | some e =>
      cases hrun
      exact h
    | none =>
      simp only at hrun
      split at hrun
      · cases hrun
        exact h.rStreamWriteChunk ‹_›
      · exact h.rStreamWriteChunk hrun
  | cons buf pieces ih =>
    rw [Mongolite.writePieces] at hrun
    split at hrun
    · split_ifs at hrun
      · cases hrun
        exact h.rStreamWriteChunk ‹_›
      · exact ih (h.rStreamWriteChunk ‹_›) hrun
    · exact h.rStreamWriteChunk hrun

theorem HasFile.seekStart (h : HasFile id x.2) (hrun : seekStart fate x = (b, x')) :
    HasFile id x'.2 := by
  unfold Mongolite.seekStart at hrun
  dsimp only at hrun
  split_ifs at hrun
  · split at hrun
    · cases hrun
      exact h.flushPage ‹_›
    · rename_i hflush
      have hkept := h.flushPage hflush
      cases hrun
      exact hkept
  · cases hrun
    exact h
  · cases hrun
    exact h

theorem HasFile.createFileFromStream {readError : Bool} {pieces : List (List UInt8)}
    (h : HasFile id x.2) (hrun : createFileFromStream fate readError pieces x = some (b, x')) :
    HasFile id x'.2 := by
  induction pieces generalizing x with
  | nil =>
    rw [Mongolite.createFileFromStream] at hrun
    split_ifs at hrun
    · cases hrun
      exact h
    · exact h.seekStart (Option.some.inj hrun)
  | cons buf pieces ih =>
    rw [Mongolite.createFileFromStream] at hrun
    split_ifs at hrun
    · exact h.seekStart (Option.some.inj hrun)
    · unfold mongocGridfsFileWritev at hrun
      split at hrun
      · cases hrun
      · cases hrun
        exact h.writevLoop ‹_›
      · exact ih (h.writevLoop ‹_›) hrun

theorem HasFile.rMongoGridfsUpload {i : ℕ} {uploadDate : ℤ} {args : UploadArgs}
    {r : Except String FileDoc} {s' : GridServer} (h : HasFile id s)
    (hrun : rMongoGridfsUpload fate i uploadDate args s = some (r, s')) : HasFile id s' := by
  unfold Mongolite.rMongoGridfsUpload at hrun
  split at hrun
  · cases hrun
    exact h
  · split at hrun
    · cases hrun
    · rename_i hcreate
      cases hrun
      refine HasFile.createFileFromStream ?_ hcreate
      exact h
    · rename_i x hcreate
      have hfile : HasFile id x.2 := by
        refine HasFile.createFileFromStream ?_ hcreate
        exact h
      dsimp only at hrun
      split at hrun
      · rename_i hsave
        cases hrun
        refine HasFile.save ?_ hsave
        exact hfile
      · rename_i hsave
        cases hrun
        refine HasFile.save ?_ hsave
        exact hfile

theorem HasFile.uploadAll {files : List (ℕ × ℤ × UploadArgs)} {out : List FileDoc}
    {r : Except String (List FileDoc)} {s' : GridServer} (h : HasFile id s)
    (hrun : uploadAll fate files out s = some (r, s')) : HasFile id s' := by
  induction files generalizing out s with
  | nil =>
    cases hrun
    exact h
  | cons file files ih =>
    rw [Mongolite.uploadAll] at hrun
    split at hrun
    · cases hrun
    · cases hrun
      exact h.rMongoGridfsUpload ‹_›
    · exact ih (h.rMongoGridfsUpload ‹_›) hrun

/-- The same file documents are visible. -/
def SameFiles (s s' : GridServer) : Prop := ∀ d, d ∈ s'.files ↔ d ∈ s.files

theorem sameFiles_of_eq {s' : GridServer} (h : s'.files = s.files) : SameFiles s s' :=
  fun d => by rw [h]

theorem HasFile.not_sameFiles {s' : GridServer} (h : HasFile id s')
    (hnew : ∀ d ∈ s.files, d.id ≠ id) : ¬ SameFiles s s' := by
  obtain ⟨d, hd, hid⟩ := h
  exact fun hsame => hnew d ((hsame d).mp hd) hid

end Mongolite
