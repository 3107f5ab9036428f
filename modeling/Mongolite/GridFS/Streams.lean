import Mongolite.GridFS.OpenFile
import Mongolite.Library.Raising

/-! # Transfers between R and a GridFS

`mongo_gridfs_write_stream` and `mongo_gridfs_read_stream` copy between a
connection and a stream over a file in chunks of 1 MiB;
`mongo_gridfs_upload` and `mongo_gridfs_download` copy between a file on disk
and a GridFS in chunks of 4096 bytes.
-/

namespace Mongolite

/-! ## Writing -/

abbrev FileResult (α : Type) := Option (Except String α × FileIO)

def rStreamWriteChunk (fate : ℕ → Fate) (buf : List UInt8) (x : FileIO) : FileResult ℕ :=
  if buf ≠ [] then
    match mongocGridfsFileWritev fate buf x with
    | none => none
    | some (none, x') => some (.error "Error writing to stream", x')
    | some (some len, x') =>
      if len < buf.length then some (.error "Incomplete stream write", x') else some (.ok len, x')
  else
    match mongocGridfsFileSave fate x with
    | (true, x') => some (.ok 0, x')
    | (false, x') => some (.error (x'.1.error.getD ""), x')

/-- `fin_filestream`: destroying the stream closes it, and closing it saves the file. -/
def finFilestream (fate : ℕ → Fate) (x : FileIO) : GridServer :=
  (mongocGridfsFileSave fate x).2.2

/-- A connection to read from: whether it is one and can be opened, the pieces that it delivers, and
whether then comes an empty read or an error. -/
structure Source where
  opening : Option String
  pieces : List (List UInt8)
  ending : Option String

/-- The loop of `mongo_gridfs_write_stream`, which counts the bytes written. -/
def writePieces (fate : ℕ → Fate) (ending : Option String) :
    List (List UInt8) → ℕ → FileIO → FileResult ℕ
  | [], total, x =>
    match ending with
    | some e => some (.error e, x)
    | none =>
      match rStreamWriteChunk fate [] x with
      | some (.ok len, x') => some (.ok (total + len), x')
      | r => r
  | buf :: pieces, total, x =>
    match rStreamWriteChunk fate buf x with
    | some (.ok len, x') =>
      if buf = [] then some (.ok (total + len), x')
      else writePieces fate ending pieces (total + len) x'
    | r => r

/-- The arguments of `fs$write`. `early` is raised before there is a stream, `closing` after the
last write: an interrupt, say. -/
structure WriteArgs where
  early : Option String
  name : String
  contentType : Option String
  metadata : Option String
  source : Source
  closing : Option String

def rNewWriteStream (id : ℕ) (uploadDate : ℤ) (args : WriteArgs) : OpenFile :=
  let file := mongocGridfsFileNew id uploadDate args.name
  let file := args.contentType.elim file file.setContentType
  args.metadata.elim file file.setMetadata

/-- What a call leaves behind: its outcome, the stream if it was abandoned, and the server. -/
structure WriteResult where
  outcome : Except String FileDoc
  abandoned : Option OpenFile
  server : GridServer

def mongoGridfsWriteStream (fate : ℕ → Fate) (id : ℕ) (uploadDate : ℤ) (args : WriteArgs)
    (s : GridServer) : Option WriteResult :=
  match args.early with
  | some e => some ⟨.error e, none, s⟩
  | none =>
    let stream := rNewWriteStream id uploadDate args
    match args.source.opening with
    | some e => some ⟨.error e, some stream, s⟩
    | none =>
      match writePieces fate args.source.ending args.source.pieces 0 (stream, s) with
      | none => none
      | some (.error e, x) => some ⟨.error e, some x.1, x.2⟩
      | some (.ok _, x) =>
        match args.closing with
        | some e => some ⟨.error e, some x.1, x.2⟩
        | none => some ⟨.ok x.1.doc, none, finFilestream fate x⟩

/-- The server after a garbage collection has finalized the stream, if one was abandoned. -/
def WriteResult.afterGc (fate : ℕ → Fate) (r : WriteResult) : GridServer :=
  r.abandoned.elim r.server fun f => finFilestream fate (f, r.server)

/-! ## Uploading -/

/-- `mongoc_gridfs_file_seek` to the start; `false` is `-1`. -/
def seekStart (fate : ℕ → Fate) (x : FileIO) : Bool × FileIO :=
  let rewind (x : FileIO) : Bool × FileIO := (true, { x.1 with pos := 0, n := 0 }, x.2)
  if x.1.n ≠ 0 then
    if x.1.page.any FilePage.isDirty then
      match flushPage fate x with
      | (false, x') => (false, x')
      | (true, x') => rewind x'
    else rewind ({ x.1 with page := none }, x.2)
  else rewind ({ x.1 with page := x.1.page.map fun page => { page with offset := 0 } }, x.2)

/-- The loop of `mongoc_gridfs_create_file_from_stream`; `false` is `NULL`. -/
def createFileFromStream (fate : ℕ → Fate) (readError : Bool) :
    List (List UInt8) → FileIO → Option (Bool × FileIO)
  | [], x => if readError then some (false, x) else some (seekStart fate x)
  | buf :: pieces, x =>
    if buf = [] then some (seekStart fate x)
    else
      match mongocGridfsFileWritev fate buf x with
      | none => none
      | some (none, x') => some (false, x')
      | some (some _, x') => createFileFromStream fate readError pieces x'

/-- A file to upload: what is raised before it is opened or when it cannot be, the pieces that are
read from it, and whether a read then fails. -/
structure UploadArgs where
  opening : Option String
  pieces : List (List UInt8)
  readError : Bool
  name : String
  contentType : Option String
  metadata : Option String

def rMongoGridfsUpload (fate : ℕ → Fate) (id : ℕ) (uploadDate : ℤ) (args : UploadArgs)
    (s : GridServer) : Option (Except String FileDoc × GridServer) :=
  match args.opening with
  | some e => some (.error e, s)
  | none =>
    match createFileFromStream fate args.readError args.pieces
        (mongocGridfsFileNew id uploadDate args.name, s) with
    | none => none
    | some (false, x) => some (.error "Failure at mongoc_gridfs_create_file_from_stream()", x.2)
    | some (true, x) =>
      let file := args.contentType.elim x.1 x.1.setContentType
      let file := args.metadata.elim file file.setMetadata
      match mongocGridfsFileSave fate (file, x.2) with
      | (true, x') => some (.ok x'.1.doc, x'.2)
      | (false, x') => some (.error (x'.1.error.getD ""), x'.2)

/-- The loop of `mongo_gridfs_upload`; each file gets an id of its own. -/
def uploadAll (fate : ℕ → Fate) :
    List (ℕ × ℤ × UploadArgs) → List FileDoc → GridServer →
      Option (Except String (List FileDoc) × GridServer)
  | [], out, s => some (.ok out, s)
  | (id, uploadDate, args) :: files, out, s =>
    match rMongoGridfsUpload fate id uploadDate args s with
    | none => none
    | some (.error e, s') => some (.error e, s')
    | some (.ok doc, s') => uploadAll fate files (out ++ [doc]) s'

/-- `mongo_gridfs_upload`; `early` is raised before anything is uploaded. -/
def mongoGridfsUpload (fate : ℕ → Fate) (early : Option String)
    (files : List (ℕ × ℤ × UploadArgs)) (s : GridServer) :
    Option (Except String (List FileDoc) × GridServer) :=
  match early with
  | some e => some (.error e, s)
  | none => uploadAll fate files [] s

/-! ## Reading -/

inductive FileName where
  | query (json : String)
  | name (name : String)
  deriving DecidableEq, Repr

/-- `name_or_query`; `validate` is `jsonlite::validate`. -/
def nameOrQuery (validate : String → Bool) (x : String) : Except String FileName :=
  let x :=
    if "id:".toList.isPrefixOf x.toList then
      "\x7b\"_id\": \x7b\"$oid\":\"" ++ String.ofList (x.toList.drop 3) ++ "\"\x7d\x7d"
    else x
  if validate x then .ok (.query x)
  else if x.toList.any fun c => c ∈ ['\t', ' ', '\x7b'] then
    .error "Parameter 'name' does not contain valid json or filename (no spaces)"
  else .ok (.name x)

/-- `find_single_file`: the first file of that name, or the first one that matches the query. -/
def findSingleFile (queryMatches : String → FileDoc → Bool) (s : GridServer) :
    FileName → Except String OpenFile
  | .query json =>
    (s.files.find? (queryMatches json)).elim (.error "File not found. ") (.ok ∘ openFile)
  | .name name =>
    (s.files.find? fun d => d.filename = some name).elim (.error "File not found. ")
      (.ok ∘ openFile)

def rStreamReadChunk (s : GridServer) (n : ℕ) (f : OpenFile) :
    Option (Except String (List UInt8) × OpenFile) :=
  match mongocGridfsFileReadv s n f with
  | none => none
  | some (none, f') => some (.error "Error reading from stream", f')
  | some (some buf, f') => some (.ok buf, f')

def readBufsize : ℕ := 1024 * 1024

/-- The loop of `mongo_gridfs_read_stream`, with what was written to the connection so far. -/
def readChunks (s : GridServer) :
    ℕ → ℤ → List UInt8 → OpenFile → Option (Except String (List UInt8))
  | 0, _, _, _ => none
  | fuel + 1, remaining, out, f =>
    if remaining > 0 then
      match rStreamReadChunk s readBufsize f with
      | none => none
      | some (.error e, _) => some (.error e)
      | some (.ok buf, f') =>
        let remaining' := remaining - buf.length
        if buf.length < readBufsize ∧ remaining' > 0 then
          some (.error ("Stream read incomplete: " ++ toString remaining' ++ " remaining"))
        else readChunks s fuel remaining' (out ++ buf) f'
    else some (.ok out)

abbrev TransferResult := Option (Except String (List UInt8 × FileDoc))

def withFile (validate : String → Bool) (queryMatches : String → FileDoc → Bool) (s : GridServer)
    (x : String) (body : OpenFile → Option (Except String (List UInt8))) : TransferResult :=
  andThen (some (nameOrQuery validate x)) fun name =>
    andThen (some (findSingleFile queryMatches s name)) fun f =>
      andThen (body f) fun data => some (.ok (data, f.doc))

def mongoGridfsReadStream (validate : String → Bool) (queryMatches : String → FileDoc → Bool)
    (s : GridServer) (x : String) : TransferResult :=
  withFile validate queryMatches s x fun f => readChunks s (f.doc.length + 1) f.doc.length [] f

/-- The loop of `R_mongo_gridfs_download`, with what was written to disk so far. -/
def downloadChunks (s : GridServer) :
    ℕ → List UInt8 → OpenFile → Option (Except String (List UInt8))
  | 0, _, _ => none
  | fuel + 1, out, f =>
    match mongocGridfsFileReadv s 4096 f with
    | none => none
    | some (none, _) => some (.error "Error in mongoc_stream_readv()")
    | some (some buf, f') =>
      if buf.length = 0 then some (.ok out) else downloadChunks s fuel (out ++ buf) f'

def mongoGridfsDownload (validate : String → Bool) (queryMatches : String → FileDoc → Bool)
    (s : GridServer) (x : String) : TransferResult :=
  withFile validate queryMatches s x fun f => downloadChunks s (f.doc.length + 1) [] f

end Mongolite
