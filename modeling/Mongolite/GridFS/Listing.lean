import Mathlib.Data.List.Forall2
import Mongolite.Bson.Conversion
import Mongolite.Driver.Cursor
import Mongolite.GridFS.Fields
import Mongolite.GridFS.FileDocument
import Mongolite.Library.Doubles

/-! # Listing files

`mongo_gridfs_find` makes a row of every file that the file list gives. The list
gives `NULL` at its end, where its cursor fails, and where a document cannot be
read as a file; the loop takes all of them for the end.
-/

namespace Mongolite

variable {opts : ConvertOptions} {toJson : Bson → Option String} {docs : List Bson}
  {failure : Option String} {fuel : ℕ}

/-- What `create_outlist` makes of a file. The size and the date are doubles, the date in
milliseconds; `none` is `NA`. -/
structure FileRow where
  id : RValue
  name : Option (List UInt8)
  size : ℤ
  date : ℤ
  type : Option (List UInt8)
  metadata : Option String

/-- `get_file_id`: the value is appended to an empty document, and that is converted. An embedded
document is appended if it is well framed. -/
def getFileId (opts : ConvertOptions) (file : GridfsFile) : Option (Except String RValue) :=
  match file.filesId with
  | none => some (.ok .null)
  | some it =>
    if (bsonIterType it = some .document ∨ bsonIterType it = some .array) ∧
        bsonInitStatic it.embedded = none then some (.ok .null)
    else
      andThen (convertValue opts (it.data.length + 3) it) fun c => some (.ok c.value)

def createOutlist (opts : ConvertOptions) (toJson : Bson → Option String) (file : GridfsFile) :
    Option (Except String FileRow) :=
  andThen (getFileId opts file) fun id =>
    some (.ok ⟨id, file.filename, toDouble file.length, toDouble file.uploadDate,
      file.contentType, file.metadata.bind toJson⟩)

def mongocGridfsFileListNext (list : Cursor Bson) : Option (Option GridfsFile × Cursor Bson) :=
  match mongocCursorNext list with
  | (none, list') => some (none, list')
  | (some bson, list') =>
    match mongocGridfsFileNewFromBson bson with
    | none => none
    | some none => some (none, { list' with error := some "Failed to read GridFS file" })
    | some (some file) => some (some file, list')

/-- The loop of `R_mongo_gridfs_find`; `none` means that it did not end within `fuel` rounds. -/
def listFiles (opts : ConvertOptions) (toJson : Bson → Option String) :
    ℕ → Cursor Bson → List FileRow → Option (Except String (List FileRow))
  | 0, _, _ => none
  | fuel + 1, list, out =>
    match mongocGridfsFileListNext list with
    | none => none
    | some (none, _) => some (.ok out)
    | some (some file, list') =>
      andThen (createOutlist opts toJson file) fun row =>
        listFiles opts toJson fuel list' (out ++ [row])

def rMongoGridfsFind (opts : ConvertOptions) (toJson : Bson → Option String) (fuel : ℕ)
    (list : Cursor Bson) : Option (Except String (List FileRow)) :=
  listFiles opts toJson fuel list []

inductive FileColumn where
  | id
  | name
  | size
  | date
  | type
  | metadata
  deriving DecidableEq, Repr

/-- `[[` -/
def FileRow.field (row : FileRow) : FileColumn → FileField
  | .id => .value row.id
  | .name => .string row.name
  | .size => .value (.doubleOfInt row.size)
  | .date => .value (.posixct row.date)
  | .type => .string row.type
  | .metadata => .json row.metadata

/-- A time column is given its class. -/
def Column.setPosixct (col : Column FileField) : Column FileField :=
  { col with cells := col.cells.map fun
      | .seconds ms => .value (.posixct ms)
      | f => f }

structure FileFrame where
  column : FileColumn → Column FileField
  rowNames : List ℕ

def listToDf (list : List FileRow) : FileFrame where
  column := fun col =>
    let out := rVectors.simplify2array (list.map fun row => row.field col)
    if col = .date then out.setPosixct else out
  rowNames := List.range' 1 list.length

/-- `mongo_gridfs_find`, from the cursor over the matching documents on. -/
def mongoGridfsFind (opts : ConvertOptions) (toJson : Bson → Option String) (fuel : ℕ)
    (list : Cursor Bson) : Option (Except String FileFrame) :=
  andThen (rMongoGridfsFind opts toJson fuel list) fun out => some (.ok (listToDf out))

/-! ## The rows of a listing -/

def IsRow (opts : ConvertOptions) (toJson : Bson → Option String) (d : Bson) (row : FileRow) :
    Prop :=
  ∃ file, mongocGridfsFileNewFromBson d = some (some file) ∧
    createOutlist opts toJson file = some (.ok row)

theorem exists_convertValue (opts : ConvertOptions) (it : BsonIter) :
    ∃ c, convertValue opts (it.data.length + 3) it = some (.ok c) := by
  have hchild : (bsonIterRecurse it).remaining + 1 < it.data.length + 2 := by
    have hlen : it.embedded.length ≤ it.data.length :=
      (List.length_take_le' _ _).trans (by simp)
    have hremaining : (bsonIterRecurse it).remaining = it.embedded.length - 4 := rfl
    omega
  obtain ⟨es, ws, hes⟩ := exists_converts opts (bsonIterRecurse it)
  obtain ⟨levels, -, harray, hobject⟩ :=
    convertList_of_fills hes (fills_of_converts hes) (it.data.length + 2) hchild
  rw [convertValue]
  split_ifs
  · exact ⟨_, harray⟩
  · exact ⟨_, hobject⟩
  · cases convertScalar opts it with
    | none => exact ⟨_, rfl⟩
    | some v => exact ⟨_, rfl⟩

theorem exists_createOutlist (opts : ConvertOptions) (toJson : Bson → Option String)
    (file : GridfsFile) : ∃ row, createOutlist opts toJson file = some (.ok row) := by
  have hid : ∃ id, getFileId opts file = some (.ok id) := by
    rw [getFileId]
    cases file.filesId with
    | none => exact ⟨.null, rfl⟩
    | some it =>
      obtain ⟨c, hc⟩ := exists_convertValue opts it
      simp only [hc, andThen_ok]
      split_ifs
      · exact ⟨.null, rfl⟩
      · exact ⟨c.value, rfl⟩
  obtain ⟨id, hid⟩ := hid
  exact ⟨_, by rw [createOutlist, hid, andThen_ok]⟩

instance : DecidablePred FileReadable := fun d =>
  decidable_of_iff ((mongocGridfsFileNewFromBson d).join.isSome) (by
    obtain ⟨r, hr, hiff⟩ := newFromBson_spec d
    rw [hr]
    exact hiff)

/-- The listing ends before the first document that cannot be read, and where the cursor does. -/
theorem listFiles_fresh (opts : ConvertOptions) (toJson : Bson → Option String)
    (failure : Option String) (fuel : ℕ) (docs : List Bson) (out : List FileRow)
    (hfuel : docs.length < fuel) :
    ∃ rows, listFiles opts toJson fuel (.fresh docs failure) out = some (.ok (out ++ rows)) ∧
      List.Forall₂ (IsRow opts toJson) (docs.takeWhile fun d => FileReadable d) rows := by
  induction fuel generalizing docs out with
  | zero => exact absurd hfuel (Nat.not_lt_zero _)
  | succ fuel ih =>
    cases docs with
    | nil => exact ⟨[], by simp [listFiles, mongocGridfsFileListNext, mongocCursorNext,
        Cursor.fresh], .nil⟩
    | cons d ds =>
      have hnext : mongocCursorNext (.fresh (d :: ds) failure) = (some d, .fresh ds failure) := rfl
      obtain ⟨r, hr, hiff⟩ := newFromBson_spec d
      cases r with
      | none =>
        have hnot : ¬ FileReadable d := by simpa using hiff
        exact ⟨[], by simp [listFiles, mongocGridfsFileListNext, hnext, hr], by simp [hnot]⟩
      | some file =>
        have hread : FileReadable d := hiff.mp rfl
        obtain ⟨row, hrow⟩ := exists_createOutlist opts toJson file
        obtain ⟨rows, hrun, hall⟩ := ih ds (out ++ [row]) (Nat.lt_of_succ_lt_succ hfuel)
        refine ⟨row :: rows, ?_, ?_⟩
        · simp only [listFiles, mongocGridfsFileListNext, hnext, hr, hrow, andThen_ok, hrun]
          simp
        · rw [List.takeWhile_cons_of_pos (by simpa using hread)]
          exact .cons ⟨file, hr, hrow⟩ hall

/-! ## Complete listings -/

/-- What a cursor over the matching documents delivers: all of them, or some before it fails. -/
structure CursorDelivers (matching delivered : List Bson) (failure : Option String) : Prop where
  isPrefix : delivered <+: matching
  complete : failure = none → delivered = matching

/-- An error, or a row for every matching document, in order. -/
def ListsEveryFile (opts : ConvertOptions) (toJson : Bson → Option String) (matching : List Bson)
    (result : Option (Except String FileFrame)) : Prop :=
  (∃ e, result = some (.error e)) ∨
    ∃ rows, result = some (.ok (listToDf rows)) ∧ List.Forall₂ (IsRow opts toJson) matching rows

theorem rows_of_listToDf_eq {rows rows' : List FileRow} (h : listToDf rows = listToDf rows') :
    rows.length = rows'.length := by
  simpa [listToDf] using congrArg (fun df => df.rowNames.length) h

/-- A listing is complete if and only if the cursor delivered every document and all of them can be
read: it never fails. -/
theorem mongoGridfsFind_complete_iff {matching delivered : List Bson}
    (hdelivers : CursorDelivers matching delivered failure) (hfuel : delivered.length < fuel) :
    ListsEveryFile opts toJson matching
        (mongoGridfsFind opts toJson fuel (.fresh delivered failure)) ↔
      delivered = matching ∧ ∀ d ∈ matching, FileReadable d := by
  obtain ⟨rows, hrun, hall⟩ := listFiles_fresh opts toJson failure fuel delivered [] hfuel
  have hfind : mongoGridfsFind opts toJson fuel (.fresh delivered failure) =
      some (.ok (listToDf rows)) := by
    rw [mongoGridfsFind, rMongoGridfsFind, hrun, List.nil_append, andThen_ok]
  have hreadable := List.takeWhile_prefix (l := delivered) fun d => FileReadable d
  rw [hfind]
  constructor
  · rintro (⟨e, he⟩ | ⟨rows', heq, hall'⟩)
    · simp at he
    · have hlen := rows_of_listToDf_eq (Except.ok.inj (Option.some.inj heq))
      have hle := hreadable.length_le
      have hle' := hdelivers.isPrefix.length_le
      have hrows := hall.length_eq
      have hrows' := hall'.length_eq
      have hself := hreadable.eq_of_length (by omega)
      refine ⟨hdelivers.isPrefix.eq_of_length (by omega), ?_⟩
      rw [← hdelivers.isPrefix.eq_of_length (by omega)]
      simpa using List.takeWhile_eq_self_iff.mp hself
  · rintro ⟨rfl, hread⟩
    rw [List.takeWhile_eq_self_iff.mpr (by simpa using hread)] at hall
    exact .inr ⟨rows, rfl, hall⟩

/-- `{"_id": 1, "filename": "a"}` -/
def textNamedFile : Bson :=
  ⟨[0x1E, 0, 0, 0, 0x10, 0x5F, 0x69, 0x64, 0, 1, 0, 0, 0,
    0x02, 0x66, 0x69, 0x6C, 0x65, 0x6E, 0x61, 0x6D, 0x65, 0, 2, 0, 0, 0, 0x61, 0, 0],
    by constructor <;> decide⟩

/-- `{"_id": 2, "filename": 7}` -/
def numberNamedFile : Bson :=
  ⟨[0x1C, 0, 0, 0, 0x10, 0x5F, 0x69, 0x64, 0, 2, 0, 0, 0,
    0x10, 0x66, 0x69, 0x6C, 0x65, 0x6E, 0x61, 0x6D, 0x65, 0, 7, 0, 0, 0, 0],
    by constructor <;> decide⟩

theorem mongoGridfsFind_complete_two_files :
    ListsEveryFile ⟨false, false⟩ (fun _ => none) [textNamedFile, textNamedFile]
      (mongoGridfsFind ⟨false, false⟩ (fun _ => none) 3
        (.fresh [textNamedFile, textNamedFile] none)) :=
  (mongoGridfsFind_complete_iff ⟨List.prefix_rfl, fun _ => rfl⟩ (by decide)).mpr
    ⟨rfl, by decide⟩

/-- One file with a number for its name, and a cursor that fails after one of two files. -/
theorem mongoGridfsFind_drops_files :
    ¬ ListsEveryFile ⟨false, false⟩ (fun _ => none) [numberNamedFile, textNamedFile]
        (mongoGridfsFind ⟨false, false⟩ (fun _ => none) 3
          (.fresh [numberNamedFile, textNamedFile] none)) ∧
      ¬ ListsEveryFile ⟨false, false⟩ (fun _ => none) [textNamedFile, textNamedFile]
        (mongoGridfsFind ⟨false, false⟩ (fun _ => none) 3
          (.fresh [textNamedFile] (some "Failed to send \"getMore\" command"))) := by
  have hshort (docs : List Bson) (r : Option (Except String FileFrame))
      (hr : ∃ rows, r = some (.ok (listToDf rows)) ∧ rows.length ≠ docs.length) :
      ¬ ListsEveryFile ⟨false, false⟩ (fun _ => none) docs r := by
    obtain ⟨rows, rfl, hlen⟩ := hr
    rintro (⟨e, he⟩ | ⟨rows', heq, hall⟩)
    · simp at he
    · have := rows_of_listToDf_eq (Except.ok.inj (Option.some.inj heq))
      exact hlen (this.trans hall.length_eq.symm)
  constructor
  · exact hshort _ _ ⟨[], rfl, by decide⟩
  · exact hshort _ _ ⟨[⟨.integer 1, some [0x61], 0, 0, none, none⟩], rfl, by decide⟩

end Mongolite
