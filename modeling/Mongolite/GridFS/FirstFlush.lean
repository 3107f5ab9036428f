import Mongolite.GridFS.Content
import Mongolite.GridFS.Kept

/-! # The first flush of a file

A file has no document before its first page is flushed or the file is saved. So
what a failed transfer leaves behind depends on the first updates alone: on
those during the call, and on those with which the abandoned stream is saved
when it is finalized.
-/

namespace Mongolite

variable {fate : ℕ → Fate} {d₀ : FileDoc} {id : ℕ} {content : List UInt8} {s : GridServer}
  {x x' : FileIO} {b : Bool}

/-- Flushing a page inserts the document of the file if the chunk is stored, and the client knows,
and then the document is. -/
def FlushInserts (fate : ℕ → Fate) (n : ℕ) : Prop :=
  fate n = .done ∧ (fate (n + 1)).isCarriedOut = true

instance (fate : ℕ → Fate) (n : ℕ) : Decidable (FlushInserts fate n) :=
  inferInstanceAs (Decidable (_ ∧ _))

/-- Nothing of a file is on the server, and it is to be saved; `bytes` says whether some were
written. -/
structure Pending (s : GridServer) (id : ℕ) (bytes : Prop) (x : FileIO) : Prop where
  id_eq : x.1.doc.id = id
  files : x.2.files = s.files
  sent : x.2.sent = s.sent
  dirty : x.1.isDirty = true
  page : x.1.page.any FilePage.isDirty = true ↔ bytes

/-- What the first flush of a file leads to: it stays to be saved if the chunk is not stored, is
left alone if the document is refused then, and else has its document for ever. -/
inductive FirstFlush (fate : ℕ → Fate) (s : GridServer) (id : ℕ) (failed : Prop) (x : FileIO) : Prop
  | stuck (hfate : fate s.sent ≠ .done) (hfailed : failed)
      (h : Pending { s with sent := s.sent + 1 } id True x)
  | dropped (hfate : fate s.sent = .done) (hnext : (fate (s.sent + 1)).isCarriedOut = false)
      (hfailed : failed) (hfiles : x.2.files = s.files) (hclean : x.1.isDirty = false)
  | inserted (h : FlushInserts fate s.sent) (hfile : HasFile id x.2)

theorem upsertFile_refused (hrun : upsertFile fate x = (b, x'))
    (h : (fate x.2.sent).isCarriedOut = false) :
    b = false ∧ x'.2.files = x.2.files ∧ x'.1.isDirty = false := by
  obtain ⟨hfile, hdone, hserver⟩ := upsertFile_cases hrun
  refine ⟨?_, by rw [hserver, h]; rfl, by rw [hfile]⟩
  cases b with
  | false => rfl
  | true =>
    rw [hdone.mp rfl] at h
    cases h

theorem upsertFile_carriedOut (hrun : upsertFile fate x = (b, x'))
    (h : (fate x.2.sent).isCarriedOut = true) : HasFile x.1.doc.id x'.2 := by
  obtain ⟨-, -, hserver⟩ := upsertFile_cases hrun
  rw [hserver, if_pos h]
  exact hasFile_setFile x.1.doc _

theorem Pending.flushPage {bytes : Prop} (h : Pending s id bytes x) (hbytes : bytes)
    (hrun : flushPage fate x = (b, x')) : FirstFlush fate s id (b = false) x' := by
  have hpage := h.page.mpr hbytes
  obtain ⟨hfate, hb, hfile, hfiles, hsent⟩ | ⟨hfate, -, hup⟩ | ⟨-, hclean, -⟩ :=
    flushPage_cases hrun
  · rw [h.sent] at hfate hsent
    refine .stuck hfate hb ⟨?_, hfiles.trans h.files, hsent, ?_, ?_⟩
    all_goals rw [hfile]
    · exact h.id_eq
    · exact h.dirty
    · exact iff_of_true hpage trivial
  · rw [h.sent] at hfate
    have hnext : (fate (storedPage x).2.sent) = fate (s.sent + 1) := by rw [← h.sent]; rfl
    cases hcarried : (fate (s.sent + 1)).isCarriedOut with
    | false =>
      obtain ⟨hb, hfiles, hclean⟩ := upsertFile_refused hup (by rw [hnext, hcarried])
      exact .dropped hfate hcarried hb (hfiles.trans h.files) hclean
    | true =>
      have hfile := upsertFile_carriedOut hup (by rw [hnext, hcarried])
      have hid : (storedPage x).1.doc.id = id := h.id_eq
      rw [hid] at hfile
      exact .inserted ⟨hfate, hcarried⟩ hfile
  · rw [h.dirty] at hclean
    cases hclean

theorem Pending.saveBytes {bytes : Prop} (h : Pending s id bytes x) (hbytes : bytes)
    (hrun : mongocGridfsFileSave fate x = (b, x')) : FirstFlush fate s id (b = false) x' := by
  unfold mongocGridfsFileSave at hrun
  rw [if_neg (by simp [h.dirty]), if_pos (h.page.mpr hbytes)] at hrun
  split at hrun
  · rename_i hflush
    cases hrun
    exact h.flushPage hbytes hflush
  · rename_i x₁ hflush
    cases h.flushPage hbytes hflush with
    | stuck hfate hfailed _ => exact absurd hfailed Bool.noConfusion
    | dropped hfate hnext hfailed _ _ => exact absurd hfailed Bool.noConfusion
    | inserted hinserts hfile => exact .inserted hinserts (hfile.upsertFile hrun)

theorem Pending.saveEmpty {bytes : Prop} (h : Pending s id bytes x) (hbytes : ¬ bytes)
    (hrun : mongocGridfsFileSave fate x = (b, x')) :
    ((fate s.sent).isCarriedOut = true ∧ HasFile id x'.2) ∨
      ((fate s.sent).isCarriedOut = false ∧ b = false ∧ x'.2.files = s.files ∧
        x'.1.isDirty = false) := by
  unfold mongocGridfsFileSave at hrun
  rw [if_neg (by simp [h.dirty]), if_neg (mt h.page.mp hbytes)] at hrun
  cases hfate : (fate s.sent).isCarriedOut with
  | true =>
    have hfile := upsertFile_carriedOut hrun (by rw [h.sent, hfate])
    rw [h.id_eq] at hfile
    exact .inl ⟨rfl, hfile⟩
  | false =>
    obtain ⟨hb, hfiles, hclean⟩ := upsertFile_refused hrun (by rw [h.sent, hfate])
    exact .inr ⟨rfl, hb, hfiles.trans h.files, hclean⟩

theorem FirstFlush.imp {failed failed' : Prop} (h : FirstFlush fate s id failed x)
    (himp : failed → failed') : FirstFlush fate s id failed' x := by
  cases h with
  | stuck hfate hfailed h => exact .stuck hfate (himp hfailed) h
  | dropped hfate hnext hfailed hfiles hclean =>
    exact .dropped hfate hnext (himp hfailed) hfiles hclean
  | inserted h hfile => exact .inserted h hfile

/-! ## Writing to the first page -/

/-- A file with this content, none of which was sent. -/
structure Unsent (s : GridServer) (d₀ : FileDoc) (content : List UInt8) (x : FileIO) : Prop where
  written : Written s.files d₀ 0 content x
  pending : Pending s d₀.id (content ≠ []) x
  n_eq : x.1.n = 0

/-- A write goes to the first page as long as there is room, and flushes it when there is none. -/
theorem Unsent.writev {src : List UInt8} {len : Option ℕ} (h : Unsent s d₀ content x)
    (hsrc : src ≠ []) (hrun : mongocGridfsFileWritev fate src x = some (len, x')) :
    ((content ++ src).length ≤ d₀.chunkSize ∧ len = some src.length ∧
        Unsent s d₀ (content ++ src) x') ∨
      (d₀.chunkSize < (content ++ src).length ∧ FirstFlush fate s d₀.id (len = none) x') := by
  rw [mongocGridfsFileWritev, writevLoop] at hrun
  obtain ⟨hmany, -⟩ | ⟨f, p, hcurrent, hpage, hdirty, -, hf⟩ := h.written.currentPage
  · omega
  · obtain ⟨r, p', hwrite, hp', hr, -, hfull, hwritten⟩ := hf.write hpage src
    obtain ⟨hn, -, -, hdata, hle, -⟩ := hwritten.page p' rfl
    rw [Nat.zero_mul, List.drop_zero] at hdata
    have hlen : p'.data.length = content.length + r := by
      rw [hdata, List.length_append, List.length_take, Nat.min_eq_left hr]
    have hid : f.doc.id = d₀.id := by
      rw [hf.doc]
      rfl
    rw [List.length_append]
    simp only [hcurrent, hpage, Option.bind_some, hwrite] at hrun
    split_ifs at hrun with hall
    · cases hrun
      refine .inl ⟨by omega, by rw [hall, Nat.zero_add], ?_, ?_, hn⟩
      · have htake : src.take r = src := by rw [hall, List.take_length]
        rw [htake] at hwritten
        exact hwritten.setDirty true
      · refine ⟨hid, h.pending.files, h.pending.sent, rfl, iff_of_true hp' ?_⟩
        exact List.append_ne_nil_of_right_ne_nil content hsrc
    · have hpending : Pending s d₀.id True ({ f with
          page := some p', pos := f.pos + r,
          doc := { f.doc with length := max f.doc.length (f.pos + r) } }, x.2) :=
        ⟨hid, h.pending.files, h.pending.sent, hdirty.trans h.pending.dirty,
          iff_of_true hp' trivial⟩
      have hlong := hfull hall
      refine .inr ⟨by omega, ?_⟩
      split at hrun
      · rename_i hflush
        cases hrun
        exact (hpending.flushPage trivial hflush).imp fun _ => rfl
      · rename_i x₁ hflush
        cases hpending.flushPage trivial hflush with
        | stuck hfate hfailed _ => exact absurd hfailed Bool.noConfusion
        | dropped hfate hnext hfailed _ _ => exact absurd hfailed Bool.noConfusion
        | inserted hinserts hfile => exact .inserted hinserts (hfile.writevLoop hrun)

theorem Unsent.length_le (h : Unsent s d₀ content x) : content.length ≤ d₀.chunkSize := by
  cases hpage : x.1.page with
  | none =>
    have := h.written.noPage hpage
    omega
  | some p =>
    have := h.written.length_le.2 (by simp [hpage])
    omega

theorem unsent_rNewWriteStream (id : ℕ) (uploadDate : ℤ) (args : WriteArgs) (s : GridServer) :
    Unsent s (rNewWriteStream id uploadDate args).doc []
      (rNewWriteStream id uploadDate args, s) := by
  refine ⟨written_rNewWriteStream id uploadDate args s, ?_, ?_⟩
  · obtain ⟨contentType, metadata, hnew⟩ := rNewWriteStream_spec id uploadDate args
    rw [hnew]
    exact ⟨rfl, rfl, rfl, rfl, by simp⟩
  · obtain ⟨contentType, metadata, hnew⟩ := rNewWriteStream_spec id uploadDate args
    rw [hnew]

theorem unsent_mongocGridfsFileNew (id : ℕ) (uploadDate : ℤ) (name : String) (s : GridServer) :
    Unsent s (mongocGridfsFileNew id uploadDate name).doc []
      (mongocGridfsFileNew id uploadDate name, s) :=
  unsent_rNewWriteStream id uploadDate ⟨none, name, none, none, ⟨none, [], none⟩, none⟩ s

end Mongolite
