import Mongolite.GridFS.Listing

/-! # Rows and files

`list_to_df` leaves it to `sapply` what a column looks like. The ids of all files
together decide: those of one length greater than one become a matrix, and
those of one element are coerced to one type and lose their attributes.
-/

namespace Mongolite

variable {rows : List FileRow} {v : RValue} {k : RKind}

/-- One row for every record, and in each column a cell for every record, which is its field. -/
structure RowsAligned (rows : List FileRow) (df : FileFrame) : Prop where
  rowNames : df.rowNames.length = rows.length
  cells : ∀ col, (df.column col).cells = rows.map fun row => row.field col

namespace RValue

def length : RValue → ℕ
  | null => 0
  | raw bytes _ => bytes.length
  | list values => values.length
  | namedList entries => entries.length
  | _ => 1

/-- The type of a single value without attributes. -/
def plainKind : RValue → Option RKind
  | logical _ => some .logical
  | integer _ => some .integer
  | double _ | doubleOfInt _ | doubleOfDecimal128 _ => some .double
  | timeText _ | text _ | utf8Text _ => some .character
  | null | posixct _ | raw _ _ | list _ | namedList _ => none

end RValue

theorem length_value (v : RValue) : rVectors.length (.value v) = v.length := by
  cases v with
  | raw bytes type => exact List.length_map _
  | list values => exact List.length_map _
  | namedList entries => exact List.length_map _
  | _ => rfl

theorem isPlain_value_iff : rVectors.IsPlain k (.value v) ↔ v.plainKind = some k := by
  have hlist (hkind : v.kind = .list) : ¬ rVectors.IsPlain k (.value v) := fun h =>
    FileField.elems_list (.value v) hkind h.1
  have hnone : ¬ (none : Option RKind) = some k := nofun
  cases v with
  | null => exact iff_of_false (fun h => nomatch h.1) hnone
  | raw bytes type =>
    refine iff_of_false (fun h => ?_) hnone
    obtain ⟨b, -, hb⟩ := List.map_eq_singleton_iff.mp h.1
    cases hb
  | posixct ms => exact iff_of_false (fun h => nomatch h.1) hnone
  | list values => exact iff_of_false (hlist rfl) hnone
  | namedList entries => exact iff_of_false (hlist rfl) hnone
  | _ => exact (and_iff_right rfl).trans Option.some_inj.symm

theorem kept_field {col : FileColumn} (hid : col ≠ .id) (hdate : col ≠ .date)
    (rows : List FileRow) : rVectors.Kept (rows.map fun row => row.field col) := by
  refine .inr (.inr ⟨if col = .size then .double else .character, ?_⟩)
  rw [List.forall_mem_map]
  intro row _
  cases col with
  | id => exact absurd rfl hid
  | date => exact absurd rfl hdate
  | _ => exact ⟨rfl, rfl⟩

theorem cells_date (hne : rows ≠ []) :
    ((listToDf rows).column .date).cells = rows.map fun row => row.field .date := by
  have hdates : rows.map (fun row => row.field .date) ≠ [] := by simpa using hne
  have hone : ∀ f ∈ rows.map fun row => row.field .date, rVectors.length f = 1 := by
    rw [List.forall_mem_map]
    exact fun row _ => rfl
  have htop : rVectors.top (rows.map fun row => row.field .date) = .double := by
    refine rVectors.top_of_kind hdates ?_
    rw [List.forall_mem_map]
    exact fun row _ => rfl
  have hcells := rVectors.simplify2array_of_length_eq_one hdates hone
  rw [htop, List.map_map] at hcells
  change List.map _ (rVectors.simplify2array _).cells = _
  rw [hcells, List.map_map]
  exact List.map_congr_left fun row _ => rfl

theorem kept_ids_iff (rows : List FileRow) :
    rVectors.Kept (rows.map fun row => row.field .id) ↔
      (∃ row ∈ rows, ∃ row' ∈ rows, row.id.length ≠ row'.id.length) ∨
        (∀ row ∈ rows, row.id.length = 0) ∨ ∃ k, ∀ row ∈ rows, row.id.plainKind = some k := by
  simp only [Vectors.Kept, List.mem_map, exists_exists_and_eq_and, forall_exists_index, and_imp,
    forall_apply_eq_imp_iff₂, FileRow.field, length_value, isPlain_value_iff]

/-- A listing has the ids of its files in their rows iff they have different lengths, are all empty,
or are single values of one type without attributes. -/
theorem rowsAligned_iff (hne : rows ≠ []) :
    RowsAligned rows (listToDf rows) ↔
      (∃ row ∈ rows, ∃ row' ∈ rows, row.id.length ≠ row'.id.length) ∨
        (∀ row ∈ rows, row.id.length = 0) ∨ ∃ k, ∀ row ∈ rows, row.id.plainKind = some k := by
  have hfields (col : FileColumn) : rows.map (fun row => row.field col) ≠ [] := by simpa using hne
  rw [← kept_ids_iff, ← rVectors.cells_simplify2array_iff (hfields .id)]
  constructor
  · exact fun h => h.cells .id
  · intro hid
    refine ⟨List.length_range', fun col => ?_⟩
    by_cases hcol : col = .id
    · exact hcol ▸ hid
    · by_cases hdate : col = .date
      · rw [hdate]
        exact cells_date hne
      · rw [listToDf]
        dsimp only
        rw [if_neg hdate]
        exact (rVectors.cells_simplify2array_iff (hfields col)).mpr (kept_field hcol hdate rows)

def rowWithId (id : RValue) : FileRow := ⟨id, some [0x61], 1, 0, none, none⟩

theorem rowsAligned_two_numbers :
    RowsAligned [rowWithId (.integer 1), rowWithId (.integer 2)]
      (listToDf [rowWithId (.integer 1), rowWithId (.integer 2)]) :=
  (rowsAligned_iff (List.cons_ne_nil _ _)).mpr (.inr (.inr ⟨.integer, by
    rw [List.forall_mem_cons, List.forall_mem_singleton]
    exact ⟨rfl, rfl⟩⟩))

/-- A raw id of two bytes makes a column of two cells, and a text makes a text of a number. -/
theorem not_rowsAligned_ids :
    ¬ RowsAligned [rowWithId (.raw [1, 2] 0)] (listToDf [rowWithId (.raw [1, 2] 0)]) ∧
      ¬ RowsAligned [rowWithId (.integer 1), rowWithId (.utf8Text [0x61])]
        (listToDf [rowWithId (.integer 1), rowWithId (.utf8Text [0x61])]) := by
  constructor
  · intro h
    have hcells : [FileField.byte 1, .byte 2] = [.value (.raw [1, 2] 0)] := h.cells .id
    exact nomatch hcells
  · intro h
    have hcells : [FileField.asCharacter (.value (.integer 1)), .value (.utf8Text [0x61])] =
        [.value (.integer 1), .value (.utf8Text [0x61])] := h.cells .id
    exact nomatch hcells

end Mongolite
