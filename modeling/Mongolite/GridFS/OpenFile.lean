import Mathlib.Algebra.Order.Ring.Nat
import Mathlib.Data.Int.Notation
import Mathlib.Data.Nat.Notation

/-! # Files of a GridFS

A file object holds one page, the chunk around its position. A full page is
flushed when more is written, and then the file document is saved with the
length so far; saving a file flushes its last page. Reading past a page fetches
the next chunk.
-/

namespace Mongolite

structure FileDoc where
  id : ℕ
  length : ℕ
  chunkSize : ℕ
  uploadDate : ℤ
  filename : Option String
  contentType : Option String
  metadata : Option String
  deriving DecidableEq, Repr

/-- The chunks and the file documents on the server, and the number of updates it was sent. -/
structure GridServer where
  chunks : ℕ → ℕ → Option (List UInt8)
  files : List FileDoc
  sent : ℕ

/-- What becomes of an update: it is carried out, refused, or carried out without the client
learning of it. -/
inductive Fate where
  | done
  | refused (error : String)
  | lost (error : String)
  deriving DecidableEq, Repr

/-- An update, and the error it ends with; `fate` says what becomes of each update. -/
def GridServer.update (fate : ℕ → Fate) (change : GridServer → GridServer) (s : GridServer) :
    Option String × GridServer :=
  let s' := { s with sent := s.sent + 1 }
  match fate s.sent with
  | .done => (none, change s')
  | .refused e => (some e, s')
  | .lost e => (some e, change s')

def GridServer.setChunk (id n : ℕ) (data : List UInt8) (s : GridServer) : GridServer :=
  { s with chunks := fun i k => if i = id ∧ k = n then some data else s.chunks i k }

/-- Set the document of a file, and insert it if there is none. -/
def GridServer.setFile (doc : FileDoc) (s : GridServer) : GridServer :=
  { s with files :=
      if s.files.any (·.id = doc.id) then s.files.map fun d => if d.id = doc.id then doc else d
      else s.files ++ [doc] }

/-- `mongoc_gridfs_file_page_t`: the bytes of the page, a position in it, and whether it has a
buffer of its own, which it gets when it is written to. -/
structure FilePage where
  data : List UInt8
  offset : ℕ
  isDirty : Bool
  deriving DecidableEq, Repr

/-- `_mongoc_gridfs_file_page_read`: at most `len` bytes; `none` is `-1`. -/
def FilePage.read (page : FilePage) (len : ℕ) : Option (List UInt8 × FilePage) :=
  if page.offset > page.data.length then none
  else
    let bytes := (page.data.drop page.offset).take len
    some (bytes, { page with offset := page.offset + bytes.length })

/-- `_mongoc_gridfs_file_page_write`: as much of `src` as fits, and how much that is; `none` is
`-1`. -/
def FilePage.write (page : FilePage) (chunkSize : ℕ) (src : List UInt8) :
    Option (ℕ × FilePage) :=
  if page.offset > chunkSize then none
  else
    let written := src.take (chunkSize - page.offset)
    some (written.length,
      { data := page.data.take page.offset ++ (written ++
          page.data.drop (page.offset + written.length))
        offset := page.offset + written.length
        isDirty := true })

/-- `mongoc_gridfs_file_t`: the document as it is to be saved, the position, the number of the chunk
in the page, the page, whether the document is out of date, and the last error. -/
structure OpenFile where
  doc : FileDoc
  pos : ℕ
  n : ℕ
  page : Option FilePage
  isDirty : Bool
  error : Option String
  deriving DecidableEq, Repr

abbrev FileIO := OpenFile × GridServer

def defaultChunkSize : ℕ := 2 ^ 18 - 1024

/-- `_mongoc_gridfs_file_new`: a new file, which has no document yet. -/
def mongocGridfsFileNew (id : ℕ) (uploadDate : ℤ) (filename : String) : OpenFile :=
  ⟨⟨id, 0, defaultChunkSize, uploadDate, some filename, none, none⟩, 0, 0, none, true, none⟩

def openFile (doc : FileDoc) : OpenFile := ⟨doc, 0, 0, none, false, none⟩

def OpenFile.setContentType (f : OpenFile) (contentType : String) : OpenFile :=
  { f with doc := { f.doc with contentType := some contentType }, isDirty := true }

def OpenFile.setMetadata (f : OpenFile) (metadata : String) : OpenFile :=
  { f with doc := { f.doc with metadata := some metadata }, isDirty := true }

/-! ## Saving -/

/-- The update of the file document, at the end of `mongoc_gridfs_file_save`. -/
def upsertFile (fate : ℕ → Fate) (x : FileIO) : Bool × FileIO :=
  match x.2.update fate (·.setFile x.1.doc) with
  | (none, s) => (true, { x.1 with isDirty := false }, s)
  | (some e, s) => (false, { x.1 with isDirty := false, error := some e }, s)

/-- `_mongoc_gridfs_file_flush_page`, of a page that is there. It saves the file once the page is
gone. -/
def flushPage (fate : ℕ → Fate) (x : FileIO) : Bool × FileIO :=
  let data := x.1.page.elim [] FilePage.data
  match x.2.update fate (·.setChunk x.1.doc.id x.1.n data) with
  | (none, s) =>
    if x.1.isDirty then upsertFile fate ({ x.1 with page := none }, s)
    else (true, { x.1 with page := none }, s)
  | (some e, s) => (false, { x.1 with error := some e }, s)

def mongocGridfsFileSave (fate : ℕ → Fate) (x : FileIO) : Bool × FileIO :=
  if ¬ x.1.isDirty then (true, x)
  else if x.1.page.any FilePage.isDirty then
    match flushPage fate x with
    | (false, x') => (false, x')
    | (true, x') => upsertFile fate x'
  else upsertFile fate x

/-! ## Writing and reading -/

def divideRoundUp (num denom : ℕ) : ℕ := if num % denom ≠ 0 then num / denom + 1 else num / denom

def OpenFile.setGenericFailure (f : OpenFile) : OpenFile :=
  { f with error := some "GridFS operation failed" }

/-- `_mongoc_gridfs_file_refresh_page`: the page around the position, a new one past the last
chunk. -/
def refreshPage (s : GridServer) (f : OpenFile) : Bool × OpenFile :=
  let size := f.doc.chunkSize
  -- the number of a chunk is an `int32_t`
  if f.pos / size > 2 ^ 31 - 1 then (false, f.setGenericFailure)
  else
    let f' := { f with n := f.pos / size, page := none }
    let existing := divideRoundUp f.doc.length size
    if divideRoundUp (f.pos + 1) size > existing then
      (true, { f' with page := some ⟨[], f.pos % size, false⟩ })
    else
      match s.chunks f.doc.id f'.n with
      | none => (false, { f' with error := some ("missing chunk number " ++ toString f'.n) })
      | some data =>
        if f'.n + 1 ≠ existing ∧ data.length ≠ size then
          (false, { f' with error := some ("corrupt chunk number " ++ toString f'.n ++
            ": not equal to chunk size: " ++ toString size) })
        else if data.length > size then
          (false, { f' with error := some ("corrupt chunk number " ++ toString f'.n ++
            ": greater than chunk size: " ++ toString size) })
        else (true, { f' with page := some ⟨data, f.pos % size, false⟩ })

def currentPage (s : GridServer) (f : OpenFile) : Bool × OpenFile :=
  if f.page.isNone then refreshPage s f else (true, f)

/-- The loop of `mongoc_gridfs_file_writev` over one buffer; `some (none, _)` is `-1`, and the outer
`none` means that the loop did not end within `fuel` rounds. -/
def writevLoop (fate : ℕ → Fate) : ℕ → List UInt8 → ℕ → FileIO → Option (Option ℕ × FileIO)
  | 0, _, _, _ => none
  | fuel + 1, src, written, x =>
    match currentPage x.2 x.1 with
    | (false, f) => some (none, f, x.2)
    | (true, f) =>
      match f.page.bind fun page => page.write f.doc.chunkSize src with
      | none => some (none, f.setGenericFailure, x.2)
      | some (r, page) =>
        let pos := f.pos + r
        let f' := { f with
          page := some page, pos := pos, doc := { f.doc with length := max f.doc.length pos } }
        if r = src.length then some (some (written + r), { f' with isDirty := true }, x.2)
        else
          match flushPage fate (f', x.2) with
          | (false, x') => some (none, x')
          | (true, x') => writevLoop fate fuel (src.drop r) (written + r) x'

/-- `mongoc_gridfs_file_writev`; the position is never past the end of the file here. -/
def mongocGridfsFileWritev (fate : ℕ → Fate) (src : List UInt8) (x : FileIO) :
    Option (Option ℕ × FileIO) :=
  writevLoop fate (src.length + 2) src 0 x

/-- The loop of `mongoc_gridfs_file_readv` for one buffer with `want` bytes left, with `min_bytes`
as large as can be. -/
def readvLoop (s : GridServer) :
    ℕ → ℕ → List UInt8 → OpenFile → Option (Option (List UInt8) × OpenFile)
  | 0, _, _, _ => none
  | fuel + 1, want, bytes, f =>
    match f.page.bind fun page => page.read want with
    | none => some (none, f.setGenericFailure)
    | some (more, page) =>
      let f' := { f with page := some page, pos := f.pos + more.length }
      if more.length = want then some (some (bytes ++ more), f')
      else if f'.doc.length = f'.pos then some (some (bytes ++ more), f')
      else
        match refreshPage s f' with
        | (false, f'') => some (none, f'')
        | (true, f'') => readvLoop s fuel (want - more.length) (bytes ++ more) f''

def mongocGridfsFileReadv (s : GridServer) (count : ℕ) (f : OpenFile) :
    Option (Option (List UInt8) × OpenFile) :=
  -- reading when positioned past the end does nothing
  if f.pos ≥ f.doc.length then some (some [], f)
  else
    match currentPage s f with
    | (false, f') => some (none, f')
    | (true, f') => readvLoop s (count + 2) count [] f'

end Mongolite
