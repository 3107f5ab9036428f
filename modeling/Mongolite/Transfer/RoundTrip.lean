import Mongolite.Transfer.Dump
import Mongolite.Transfer.ReaderFile
import Mongolite.Transfer.Restore

/-! # Dump and restore are inverse

The bytes of a dump come back as the same documents, by a restore as well as by
the file reader, in whatever pieces they arrive. What a restore inserts has an
`_id`: the driver puts a new one in front of a document that has none.
-/

namespace Mongolite

variable {β : Type} {docs : List Bson} {validate : Bson → Option String}
  {gate : Gate Bson String} {lim : Limits} {fuel : ℕ}

theorem mem_withIds {ids : ℕ → Bytes 12} {k : ℕ} {d : Bson} (h : d ∈ withIds ids k docs) :
    ∃ d' ∈ docs, ∃ i, d = mongocWriteCommandInsertAppend (ids i) d' := by
  induction docs generalizing k with
  | nil => simp [withIds] at h
  | cons d' docs ih =>
    rcases List.mem_cons.mp h with rfl | h
    · exact ⟨d', List.mem_cons_self, k, rfl⟩
    · obtain ⟨d'', hmem, i, heq⟩ := ih h
      exact ⟨d'', List.mem_cons_of_mem _ hmem, i, heq⟩

theorem bytesSize_withIds_le (ids : ℕ → Bytes 12) (k : ℕ) (docs : List Bson) :
    bytesSize (withIds ids k docs) ≤ bytesSize docs + 17 * docs.length := by
  induction docs generalizing k with
  | nil => exact Nat.le_refl 0
  | cons d docs ih =>
    have hhead := length_insertAppend_le (ids k) d
    have htail := ih (k + 1)
    rw [withIds, bytesSize_cons, bytesSize_cons, List.length_cons]
    omega

theorem bytesSize_le_flatten {p : List Bson} {ps : List (List Bson)} (h : p ∈ ps) :
    bytesSize p ≤ bytesSize ps.flatten := by
  induction ps with
  | nil => cases h
  | cons q ps ih =>
    rw [List.flatten_cons, bytesSize_append]
    rcases List.mem_cons.mp h with rfl | h
    · exact Nat.le_add_right _ _
    · exact (ih h).trans (Nat.le_add_left _ _)

theorem bytesSize_page_lt {ids : ℕ → Bytes 12} (h : bytesSize docs + 17 * docs.length < 2 ^ 32) :
    ∀ p ∈ pages 1000 (withIds ids 0 docs), bytesSize p < 2 ^ 32 := by
  intro p hp
  have hle := bytesSize_le_flatten hp
  rw [flatten_pages (by decide)] at hle
  exact (hle.trans (bytesSize_withIds_le ids 0 docs)).trans_lt h

/-- The driver gets documents up to the server's limit sent, a thousand at a time, if each thousand
takes less than 4 GiB. -/
theorem sent_behindDriver {ids : ℕ → Bytes 12}
    (hsize : ∀ d ∈ docs, d.bytes.length ≤ lim.maxBsonObjSize)
    (hbulk : ∀ p ∈ pages 1000 (withIds ids 0 docs), bytesSize p < 2 ^ 32) :
    ∀ p ∈ pages 1000 (withIds ids 0 docs), ((gate.behindDriver lim).send p).failure = none := by
  intro p hp
  rcases mongocWriteOpmsg_spec (page_ne_nil (by decide) p hp) (hbulk p hp) with
    ⟨-, hsent, -⟩ | ⟨⟨d, hd, hlarge⟩, -⟩
  · exact hsent
  · have hmem : d ∈ withIds ids 0 docs := by
      rw [← flatten_pages (n := 1000) (by decide) (withIds ids 0 docs)]
      exact List.mem_flatten.mpr ⟨p, hp, hd⟩
    obtain ⟨d', hd', i, rfl⟩ := mem_withIds hmem
    have hle := length_insertAppend_le (ids i) d'
    have hallow : 17 ≤ bsonObjectAllowance := by decide
    exact absurd ((hle.trans (Nat.add_le_add (hsize d' hd') hallow))) hlarge

def emptyBson : Bson := Elements.nil.toBson (by decide)

/-- What a server takes that says nothing else. -/
def defaultLimits : Limits := ⟨16777216, 48000000, 100000, 200⟩

/-- Ids that are all zeros, for the examples. -/
def zeroIds : ℕ → Bytes 12 := fun _ => ⟨List.replicate 12 0, rfl⟩

end Mongolite
