import Mongolite.Bson.Document
import Mongolite.Library.Raising

/-! # The buffered reader of documents

`bson_reader_t` over a handle keeps the bytes it has read ahead in a buffer,
which it refills when too few are left for the next document and doubles when
the document is larger than the buffer.
-/

namespace Mongolite

/-- What bytes come from: those still to come, how many are ready at each read, and the number
of reads so far. -/
structure Connection where
  rest : List UInt8
  ready : ℕ → ℕ
  reads : ℕ

/-- A read gives at most `count` bytes, and at least one unless none are left. -/
def Connection.read (con : Connection) (count : ℕ) : List UInt8 × Connection :=
  let n := min count (max 1 (con.ready con.reads))
  (con.rest.take n, { con with rest := con.rest.drop n, reads := con.reads + 1 })

/-- A `bson_reader_read_func_t`; `none` is the negative result of a read that fails. -/
abbrev ReadFunc := Connection → ℕ → Except String (Option (List UInt8) × Connection)

/-- `readBin` takes its count as an `int`, and raises when that is negative or `NA`. -/
def bsonReaderFeed : ReadFunc := fun con count =>
  if toInt32 count < 0 then .error "Mongo reader failed to read data from connection. (1)"
  else
    let (bytes, con') := con.read (toInt32 count).toNat
    .ok (some bytes, con')

def bsonReaderHandleFdRead : ReadFunc := fun con count =>
  let (bytes, con') := con.read count
  .ok (some bytes, con')

/-- A reader over a handle: the bytes up to `end` of its buffer, where the next document starts
in them, the size of the buffer, and whether the handle is used up or has failed. -/
structure BsonReader where
  handle : Connection
  data : List UInt8
  offset : ℕ
  len : ℕ
  done : Bool
  failed : Bool

def BsonReader.ahead (r : BsonReader) : List UInt8 := r.data.drop r.offset

def bsonReaderHandleFillBuffer (read : ReadFunc) (r : BsonReader) : Except String BsonReader :=
  -- handle first read specially
  if r.done = false ∧ r.offset = 0 ∧ r.data = [] then
    match read r.handle r.len with
    | .error e => .error e
    | .ok (none, con) => .ok { r with handle := con, done := true }
    | .ok (some [], con) => .ok { r with handle := con, done := true }
    | .ok (some bytes, con) => .ok { r with handle := con, data := bytes }
  else
    -- move valid data to head
    match read r.handle (r.len - r.ahead.length) with
    | .error e => .error e
    | .ok (none, con) =>
      .ok { r with handle := con, data := r.ahead, offset := 0, done := true, failed := true }
    | .ok (some [], con) =>
      .ok { r with handle := con, data := r.ahead, offset := 0, done := true, failed := false }
    | .ok (some bytes, con) => .ok { r with handle := con, data := r.ahead ++ bytes, offset := 0 }

def bsonReaderHandleGrowBuffer (r : BsonReader) : BsonReader := { r with len := r.len * 2 }

def bsonReaderNewFromHandle (read : ReadFunc) (con : Connection) : Except String BsonReader :=
  bsonReaderHandleFillBuffer read ⟨con, [], 0, 1024, false, false⟩

structure ReadResult where
  doc : Option Bson
  reachedEof : Bool
  reader : BsonReader

/-- The last part of a round, with a whole document read ahead. -/
def bsonReaderHandleTake (r : BsonReader) (blen : ℕ) : ReadResult :=
  match bsonInitStatic (r.ahead.take blen) with
  | none => ⟨none, false, r⟩
  | some doc => ⟨some doc, false, { r with offset := r.offset + blen }⟩

/-- The loop of `_bson_reader_handle_read`; `none` means that it did not end within `fuel` rounds.
The two comparisons with the document's length are of signed 32-bit numbers. -/
def readLoop (read : ReadFunc) : ℕ → BsonReader → Option (Except String ReadResult)
  | 0, _ => none
  | fuel + 1, r =>
    if r.done then some (.ok ⟨none, !r.failed, r⟩)
    else if r.ahead.length < 4 then
      andThen (some (bsonReaderHandleFillBuffer read r)) (readLoop read fuel)
    else
      let blen := readI32le r.ahead
      if blen < 5 then some (.ok ⟨none, false, r⟩)
      else if toInt32 r.ahead.length < blen then
        let grown := if toInt32 r.len < blen then bsonReaderHandleGrowBuffer r else r
        andThen (some (bsonReaderHandleFillBuffer read grown)) (readLoop read fuel)
      else some (.ok (bsonReaderHandleTake r blen.toNat))

/-- `bson_reader_read`: every round but the last two takes a byte from the handle. -/
def bsonReaderRead (read : ReadFunc) (r : BsonReader) : Option (Except String ReadResult) :=
  readLoop read (r.handle.rest.length + 2) r

end Mongolite
