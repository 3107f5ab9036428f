import Mathlib.Data.List.Basic

/-! # Frames in a stream

A framing says what the front of a stream shows: a whole frame, that the stream
is cut off inside one, or that none can start so. Every stream is a sequence of
frames and a rest that starts with no frame, in one way.
-/

namespace Mongolite

variable {β φ : Type*}

inductive Front (φ : Type*)
  | clean
  | cut
  | bad
  | frame (d : φ)
  deriving DecidableEq

/-- A way to tell frames apart in a stream, whatever follows them. -/
structure Framing (β φ : Type*) where
  front : List β → Front φ
  bytes : φ → List β
  bytes_ne_nil : ∀ d : φ, bytes d ≠ []
  front_append : ∀ (d : φ) (cs : List β), front (bytes d ++ cs) = .frame d
  prefix_of_frame : ∀ (bs : List β) (d : φ), front bs = .frame d → bytes d <+: bs
  front_eq_clean : ∀ bs : List β, front bs = .clean ↔ bs = []

namespace Framing

variable (F : Framing β φ) {bs cs : List β} {d : φ} {ds : List φ}

theorem length_drop_lt (h : F.front bs = .frame d) :
    (bs.drop (F.bytes d).length).length < bs.length := by
  have hd : 0 < (F.bytes d).length := List.length_pos_iff.mpr (F.bytes_ne_nil d)
  have hle := (F.prefix_of_frame bs d h).length_le
  rw [List.length_drop]
  omega

/-- The frames of a stream, up to the first place where none starts. -/
def frames (bs : List β) : List φ :=
  match _h : F.front bs with
  | .frame d => d :: frames (bs.drop (F.bytes d).length)
  | _ => []
termination_by bs.length
decreasing_by exact F.length_drop_lt _h

def rest (bs : List β) : List β :=
  match _h : F.front bs with
  | .frame d => rest (bs.drop (F.bytes d).length)
  | _ => bs
termination_by bs.length
decreasing_by exact F.length_drop_lt _h

theorem frames_of_frame (h : F.front bs = .frame d) :
    F.frames bs = d :: F.frames (bs.drop (F.bytes d).length) := by
  rw [frames]
  split <;> simp_all

theorem rest_of_frame (h : F.front bs = .frame d) :
    F.rest bs = F.rest (bs.drop (F.bytes d).length) := by
  rw [rest]
  split <;> simp_all

theorem frames_of_stop (h : ∀ d, F.front bs ≠ .frame d) : F.frames bs = [] := by
  rw [frames]
  split <;> simp_all

theorem rest_of_stop (h : ∀ d, F.front bs ≠ .frame d) : F.rest bs = bs := by
  rw [rest]
  split <;> simp_all

@[simp] theorem frames_nil : F.frames [] = [] :=
  F.frames_of_stop fun d h => by simp [(F.front_eq_clean []).mpr rfl] at h

@[simp] theorem rest_nil : F.rest [] = [] :=
  F.rest_of_stop fun d h => by simp [(F.front_eq_clean []).mpr rfl] at h

theorem frames_bytes_append (d : φ) (cs : List β) :
    F.frames (F.bytes d ++ cs) = d :: F.frames cs := by
  rw [F.frames_of_frame (F.front_append d cs), List.drop_left]

theorem rest_bytes_append (d : φ) (cs : List β) : F.rest (F.bytes d ++ cs) = F.rest cs := by
  rw [F.rest_of_frame (F.front_append d cs), List.drop_left]

theorem frames_flatMap_append (ds : List φ) (cs : List β) :
    F.frames (ds.flatMap F.bytes ++ cs) = ds ++ F.frames cs := by
  induction ds with
  | nil => rfl
  | cons d ds ih =>
    rw [List.flatMap_cons, List.append_assoc, F.frames_bytes_append, ih, List.cons_append]

theorem rest_flatMap_append (ds : List φ) (cs : List β) :
    F.rest (ds.flatMap F.bytes ++ cs) = F.rest cs := by
  induction ds with
  | nil => rfl
  | cons d ds ih => rw [List.flatMap_cons, List.append_assoc, F.rest_bytes_append, ih]

theorem flatMap_frames_append_rest (bs : List β) :
    (F.frames bs).flatMap F.bytes ++ F.rest bs = bs := by
  fun_induction F.frames bs with
  | case1 bs d hd ih =>
    rw [F.rest_of_frame hd, List.flatMap_cons, List.append_assoc, ih]
    exact List.prefix_iff_eq_append.mp (F.prefix_of_frame bs d hd)
  | case2 bs hstop => rw [F.rest_of_stop hstop, List.flatMap_nil, List.nil_append]

theorem length_frames_le (bs : List β) : (F.frames bs).length ≤ bs.length := by
  fun_induction F.frames bs with
  | case1 bs d hd ih =>
    have hlt := F.length_drop_lt hd
    rw [List.length_cons]
    omega
  | case2 bs hstop => exact Nat.zero_le _

theorem front_rest (bs : List β) (d : φ) : F.front (F.rest bs) ≠ .frame d := by
  fun_induction F.rest bs with
  | case1 bs d' hd' ih => exact ih
  | case2 bs hstop => exact hstop d

end Framing

end Mongolite
