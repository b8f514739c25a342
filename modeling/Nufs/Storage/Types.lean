/-
The vocabulary of the segment engine: identifiers, format constants, recovery
limits, record and journal operations, extent states and errors.

Identifiers and the fields of on-disk structures are the machine words the format
stores.  File offsets and segment numbers are natural numbers: they are never
negative, and where one is written to disk it is reduced to its eight bytes.
-/
import Nufs.Lib.Layout
import Nufs.Lib.Crc

namespace Nufs.Storage

/-! ### Identifiers -/

/-- A logical extent in the cluster. -/
abbrev ExtentID := UInt64
/-- A segment file on one disk, by its number. -/
abbrev SegmentID := Nat
/-- The version of an extent used for generation fencing. -/
abbrev Generation := UInt64

/-! ### Format constants -/

def formatVersion : UInt8 := 3
def recordMagic : UInt32 := 0x4E554653
def segmentMagic : UInt32 := 0x53454744
def batchCommitMagic : UInt32 := 0x42434F4D

def segmentHeaderSize : Nat := 22
def segmentFooterSize : Nat := 65
def recordHeaderSize : Nat := 55
def recordTrailerSize : Nat := 12
def frameIndexEntrySize : Nat := 13
def batchCommitSize : Nat := 42
def commitRecordSize : Nat := 73

/-! ### Limits -/

def maxRecoveryRecords : Nat := 100000
def maxRecoveryReplayBytes : Nat := 256 * 2 ^ 20
def maxRecoveryTrailingBytes : Nat := 128 * 2 ^ 20
def maxRecordsPerSegment : Nat := 1000000
def defaultDataSegmentSize : Nat := 4 * 2 ^ 30
def defaultFrameSize : Nat := 64 * 2 ^ 10

/-! ### Enumerations -/

/-- The durable mutation a record stands for. -/
inductive RecordOp
  | put | delete | relocate
  deriving DecidableEq, Repr

/-- The operation of a journal record; `unknown` is any byte the format does not name. -/
inductive CommitLogOp
  | put | tombstone | relocate | sealSegment | indexSafe
  | unknown (b : UInt8) (h : 5 ≤ b)
  deriving DecidableEq, Repr

/-- The compression of a stored frame; `unknown` is any byte the format does not name. -/
inductive CompressionCodec
  | none | zstd
  | unknown (b : UInt8) (h : 2 ≤ b)
  deriving DecidableEq, Repr

/-- Small-file segments and data segments; `unknown` is any byte the format does not name. -/
inductive SegmentClass
  | data | small
  | unknown (b : UInt8) (h : 2 ≤ b)
  deriving DecidableEq, Repr

/-- The lifecycle of an extent on a local disk. -/
inductive ExtentState
  | durable | tombstoned | corrupt | relocating
  deriving DecidableEq, Repr

namespace RecordOp

def toByte : RecordOp → UInt8
  | put => 1
  | delete => 2
  | relocate => 3

/-- The operation a byte names, if it is a valid one. -/
def ofByte (b : UInt8) : Option RecordOp :=
  if b = 1 then some put
  else if b = 2 then some delete
  else if b = 3 then some relocate
  else none

theorem ofByte_toByte (op : RecordOp) : ofByte op.toByte = some op := by
  cases op <;> rfl

end RecordOp

namespace CommitLogOp

def toByte : CommitLogOp → UInt8
  | put => 0
  | tombstone => 1
  | relocate => 2
  | sealSegment => 3
  | indexSafe => 4
  | unknown b _ => b

def ofByte (b : UInt8) : CommitLogOp :=
  if h : 5 ≤ b then unknown b h
  else if b = 0 then put
  else if b = 1 then tombstone
  else if b = 2 then relocate
  else if b = 3 then sealSegment
  else indexSafe

theorem ofByte_toByte (op : CommitLogOp) : ofByte op.toByte = op := by
  cases op with
  | unknown b h => exact dif_pos h
  | _ => rfl

end CommitLogOp

namespace CompressionCodec

def toByte : CompressionCodec → UInt8
  | none => 0
  | zstd => 1
  | unknown b _ => b

def ofByte (b : UInt8) : CompressionCodec :=
  if h : 2 ≤ b then unknown b h else if b = 0 then none else zstd

theorem ofByte_toByte (c : CompressionCodec) : ofByte c.toByte = c := by
  cases c with
  | unknown b h => exact dif_pos h
  | _ => rfl

end CompressionCodec

namespace SegmentClass

def toByte : SegmentClass → UInt8
  | data => 0
  | small => 1
  | unknown b _ => b

def ofByte (b : UInt8) : SegmentClass :=
  if h : 2 ≤ b then unknown b h else if b = 0 then data else small

theorem ofByte_toByte (c : SegmentClass) : ofByte c.toByte = c := by
  cases c with
  | unknown b h => exact dif_pos h
  | _ => rfl

end SegmentClass

/-! ### Errors -/

/--
The errors of the engine: the sentinels a caller can test for, with the text the
source wraps around them, and errors known by their text alone.
-/
inductive Err
  | extentNotFound
  | staleGeneration
  | indexCorrupt
  | unsupportedRecordOperation (msg : String)
  | checksumMismatch (msg : String)
  | segmentUnavailable (msg : String)
  | decryptFailed
  | quarantined
  | capacity
  | segmentFull
  | recoveryBudgetExceeded
  | storeClosed
  | invalidRange
  | unexpectedEOF
  | ioError
  | unsupportedRecoveryFormat (msg : String)
  | recoveryApply (err : Err) (committedEnd : Nat) (seq : UInt64)
  | wrapped (msg : String) (err : Err)
  | message (msg : String)
  deriving DecidableEq, Repr

/-- A number in hexadecimal digits. -/
def hex (n : Nat) : String := String.ofList (Nat.toDigits 16 n)

/-- The Castagnoli checksum of the durable formats. -/
def crc32c (data : List UInt8) : UInt32 := Crc.crc32 Crc.castagnoli data

end Nufs.Storage
