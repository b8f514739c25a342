/-
Snapshots as a stream of rows (the format `PBL1`).

The rows are written in the order of their keys, each as key and value with their
lengths, then a mark in place of a length and the number of rows.  All of it is
compressed behind four bytes of magic.

A restore sets the rows it reads in the database that is there, and commits after every
`restoreBatch` of them.  Compression is given from outside: what a reader of a compressed
string delivers, and whether it then ends or fails.
-/
import Nufs.Metadata.LogCodec

namespace Nufs.Metadata.Pebble

open Layout Wire ByteOrder

/-! ### Writing a snapshot -/

/-- A row of a database: its key and its value. -/
abbrev Row := List UInt8 × List UInt8

/--
The rows of a database in the order of their keys.  A row went through a database batch,
which is shorter than four gibibytes, so its lengths fit four bytes and are not the mark.
-/
structure Snapshot where
  rows : List Row
  sorted : rows.Pairwise fun a b => rank a.1 < rank b.1
  storable : ∀ r ∈ rows, r.1.length < 2 ^ 32 - 1 ∧ r.2.length < 2 ^ 32

/-- What compression does: a reader of a string gets bytes, and may find that it is damaged. -/
structure Zstd where
  compress : List UInt8 → List UInt8
  decompress : List UInt8 → List UInt8 × Bool

/-- A row in the stream. -/
def writeRow (r : Row) : List UInt8 := writeBytes r.1 ++ writeBytes r.2

/-- The mark in place of a key length. -/
def endMark : Nat := 0xFFFFFFFF

/-- The end of the stream. -/
def writeEnd (count : Nat) : List UInt8 := writeUint32 endMark ++ be 8 count

/-- The stream before it is compressed. -/
def plainStream (rows : List Row) : List UInt8 := rows.flatMap writeRow ++ writeEnd rows.length

def magicPBL1 : List UInt8 := ascii "PBL1"

/-- `writeKVStream`. -/
def writeKVStream (z : Zstd) (rows : List Row) : List UInt8 :=
  magicPBL1 ++ z.compress (plainStream rows)

/-! ### Restoring -/

/-- Why a read fell short. -/
inductive ReadErr
  | eof
  | unexpectedEOF
  | damaged
  deriving DecidableEq, Repr

/-- Why a restore failed. -/
inductive RestoreErr
  /-- read magic -/
  | magic (err : ReadErr)
  /-- The magic is not that of a stream of rows. -/
  | otherMagic (magic : List UInt8)
  /-- read key len -/
  | keyLen (err : ReadErr)
  /-- read count -/
  | count (err : ReadErr)
  /-- read key -/
  | key (err : ReadErr)
  /-- read value -/
  | value (err : ReadErr)
  deriving DecidableEq, Repr

/-- What stands next in the stream: a row, or the end with the number of rows. -/
inductive Item
  | row (r : Row)
  | last (count : Nat)

/-- `io.ReadFull` from a stream that ends where it should, or is damaged there. -/
def readSome (clean : Bool) (n : Nat) : Reader ReadErr (List UInt8) :=
  if clean then readFull .eof .unexpectedEOF n else readFull .damaged .damaged n

/-- A number of so many bytes. -/
def readNumber (clean : Bool) (width : Nat) : Reader ReadErr Nat := do
  let bs ← readSome clean width
  return ofBE bs

/-- `readBytesStream`. -/
def readBytesStream (clean : Bool) : Reader ReadErr (List UInt8) := do
  let n ← readNumber clean 4
  readSome clean n

/-- One turn of the loop of `restorePBL1`, as far as it reads. -/
def readItem (clean : Bool) : Reader RestoreErr Item := do
  let klen ← (readNumber clean 4).tag .keyLen
  if klen = endMark then do
    let count ← (readNumber clean 8).tag .count
    return .last count
  else do
    let key ← (readSome clean klen).tag .key
    let value ← (readBytesStream clean).tag .value
    return .row (key, value)

/-- How many rows are set in one database batch. -/
def restoreBatch : Nat := 50000

/-- A batch of rows is set. -/
def setRows (rows : Rows) (batch : List Row) : Rows :=
  batch.foldl (fun rows r => rows.insert r.1 r.2) rows

/--
The loop of `restorePBL1`: the answer, and the rows.  Every turn that goes on takes eight
bytes or more, so there are no more turns than bytes.
-/
def restoreLoop (clean : Bool) :
    Nat → Rows → List Row → List UInt8 → Except RestoreErr Unit × Rows
  | 0, rows, _, _ => (.error (.keyLen .eof), rows)
  | fuel + 1, rows, batch, bs =>
    match readItem clean bs with
    | .error e => (.error e, rows)
    | .ok (.last _, _) => (.ok (), setRows rows batch)
    | .ok (.row r, rest) =>
      if restoreBatch ≤ (batch ++ [r]).length then
        restoreLoop clean fuel (setRows rows (batch ++ [r])) [] rest
      else restoreLoop clean fuel rows (batch ++ [r]) rest

/-- `restorePBL1`. -/
def restorePBL1 (z : Zstd) (rows : Rows) (stream : List UInt8) : Except RestoreErr Unit × Rows :=
  let (plain, clean) := z.decompress stream
  restoreLoop clean (plain.length + 1) rows [] plain

/-- `checkpointRestore`, of a stream of rows. -/
def checkpointRestore (z : Zstd) (rows : Rows) (stream : List UInt8) :
    Except RestoreErr Unit × Rows :=
  match readFull ReadErr.eof ReadErr.unexpectedEOF 4 stream with
  | .error e => (.error (.magic e), rows)
  | .ok (magic, rest) =>
    if magic = magicPBL1 then restorePBL1 z rows rest
    else (.error (.otherMagic magic), rows)

end Nufs.Metadata.Pebble
