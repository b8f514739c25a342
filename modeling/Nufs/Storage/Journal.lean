/-
The commit records of a segment: the BatchCommit that ends a batch, the
descriptors its checksum binds, and the journal record of which the INDEX_SAFE
marker is one.

A BatchCommit starts with a magic number.  A journal record does not: its first
eight bytes are its sequence number.
-/
import Nufs.Storage.Types

namespace Nufs.Storage

open Layout

/-! ### Batch commits -/

/-- The record that makes a batch durable.  Its own checksum is computed. -/
structure BatchCommit where
  magic : UInt32
  version : UInt8
  /-- Small (0) or data (1) commit stream. -/
  streamID : UInt8
  seq : UInt64
  recordCount : UInt32
  firstOffset : UInt64
  lastOffset : UInt64
  descriptorsCRC : UInt32
  deriving DecidableEq, Repr

namespace BatchCommit

/-- The fields the commit's checksum covers. -/
def checkedFields (b : BatchCommit) : List Field :=
  [f32 b.magic, f8 b.version, f8 b.streamID, f64 b.seq, f32 b.recordCount, f64 b.firstOffset,
    f64 b.lastOffset, f32 b.descriptorsCRC]

/-- `BatchCommit.Encode`. -/
def encode (b : BatchCommit) : List UInt8 :=
  layout (b.checkedFields ++ [f32 (crc32c (layout b.checkedFields))])

/-- `BatchCommit.Decode`: magic and checksum are verified, the version is not. -/
def decode (src : List UInt8) : Except Err BatchCommit :=
  if src.length < batchCommitSize then
    .error (.message "storage: batchcommit too short")
  else
    let magic := u32At src 0
    if magic ≠ batchCommitMagic then
      .error (.message ("storage: bad batchcommit magic 0x" ++ hex magic.toNat))
    else if crc32c (src.take 38) ≠ u32At src 38 then
      .error (.message "storage: batchcommit crc mismatch")
    else .ok
      { magic
        version := u8At src 4
        streamID := u8At src 5
        seq := u64At src 6
        recordCount := u32At src 14
        firstOffset := u64At src 18
        lastOffset := u64At src 26
        descriptorsCRC := u32At src 34 }

end BatchCommit

/-! ### Batch descriptors -/

/-- A committed extent location: what a batch's checksum binds of each record. -/
structure CommitDescriptor where
  extentID : ExtentID
  generation : Generation
  segmentID : SegmentID
  offset : Nat
  storedLen : UInt32
  logicalLen : UInt32
  checksum : UInt32
  op : RecordOp
  deriving DecidableEq, Repr

namespace CommitDescriptor

def encode (d : CommitDescriptor) : List UInt8 :=
  layout [f64 d.extentID, f64 d.generation, (8, d.segmentID), (8, d.offset), f32 d.storedLen,
    f32 d.logicalLen, f32 d.checksum, f8 d.op.toByte]

end CommitDescriptor

/-- `EncodeDescriptors` and `descriptorCRC`: the checksum of all descriptors in one buffer. -/
def descriptorCRC (descs : List CommitDescriptor) : UInt32 :=
  crc32c (descs.flatMap CommitDescriptor.encode)

/-- `pendingDescriptorsCRC`: the same checksum, fed one descriptor at a time. -/
def pendingDescriptorsCRC (pending : List CommitDescriptor) : UInt32 :=
  ~~~ pending.foldl (fun c d => Crc.update Crc.castagnoli c d.encode) 0xFFFFFFFF

/-! ### Journal records -/

/-- A journal record.  Its checksum is computed. -/
structure CommitRecord where
  seq : UInt64
  op : CommitLogOp
  extentID : ExtentID
  generation : Generation
  segmentID : UInt64
  offset : UInt64
  storedLen : UInt32
  logicalLen : UInt32
  checksum : UInt32
  sourceSegment : UInt64
  sourceOffset : UInt64
  deriving DecidableEq, Repr

namespace CommitRecord

/-- The fields the record's checksum covers. -/
def checkedFields (r : CommitRecord) : List Field :=
  [f64 r.seq, f8 r.op.toByte, f64 r.extentID, f64 r.generation, f64 r.segmentID, f64 r.offset,
    f32 r.storedLen, f32 r.logicalLen, f32 r.checksum, f64 r.sourceSegment, f64 r.sourceOffset]

/-- `CommitRecord.Encode`. -/
def encode (r : CommitRecord) : List UInt8 :=
  layout (r.checkedFields ++ [f32 (crc32c (layout r.checkedFields))])

/-- `CommitRecord.Decode`: only the checksum is verified. -/
def decode (src : List UInt8) : Except Err CommitRecord :=
  if src.length < commitRecordSize then
    .error (.message "storage: commit record body too short")
  else if crc32c (src.take 69) ≠ u32At src 69 then
    .error (.message "storage: commit record crc mismatch")
  else .ok
    { seq := u64At src 0
      op := .ofByte (u8At src 8)
      extentID := u64At src 9
      generation := u64At src 17
      segmentID := u64At src 25
      offset := u64At src 33
      storedLen := u32At src 41
      logicalLen := u32At src 45
      checksum := u32At src 49
      sourceSegment := u64At src 53
      sourceOffset := u64At src 61 }

/-- The journal record a flush writes as its INDEX_SAFE marker. -/
def indexSafe (seq : UInt64) : CommitRecord where
  seq
  op := .indexSafe
  extentID := 0
  generation := 0
  segmentID := 0
  offset := 0
  storedLen := 0
  logicalLen := 0
  checksum := 0
  sourceSegment := 0
  sourceOffset := 0

end CommitRecord

end Nufs.Storage
