/-
The allocator of an active segment: append offsets and the totals of the footer.

Offsets are handed out before anything is written and are never taken back.
-/
import Nufs.Storage.Types

namespace Nufs.Storage

/-- `Allocator`. -/
structure Allocator where
  segmentID : SegmentID
  /-- The start of the next record. -/
  offset : Nat
  payloadBytes : Nat
  recordCount : Nat
  minExtent : ExtentID
  maxExtent : ExtentID
  hasRecord : Bool
  maxSegmentBytes : Nat
  maxRecords : Nat
  createdAt : UInt64
  segmentClass : SegmentClass
  /-- The last committed sequence, for the footer. -/
  lastCommitSeq : UInt64
  deriving DecidableEq, Repr

namespace Allocator

/-- `NewAllocator`. -/
def new (segmentID : SegmentID) (segmentClass : SegmentClass) (maxSegmentBytes : Nat)
    (createdAt : UInt64) : Allocator where
  segmentID
  offset := segmentHeaderSize
  payloadBytes := 0
  recordCount := 0
  minExtent := 0
  maxExtent := 0
  hasRecord := false
  maxSegmentBytes := if maxSegmentBytes = 0 then defaultDataSegmentSize else maxSegmentBytes
  maxRecords := maxRecordsPerSegment
  createdAt
  segmentClass
  lastCommitSeq := 0

variable (a : Allocator)

/-- `Allocator.Reserve`: the record's offset, if the segment has room for it. -/
def reserve (framingLen : UInt32) (extent : ExtentID) (storedLen : UInt32) :
    Except Err (Nat × Allocator) :=
  if a.maxRecords ≤ a.recordCount then .error .segmentFull
  else if a.maxSegmentBytes < a.offset + framingLen.toNat then .error .segmentFull
  else
    .ok (a.offset,
      { a with
        offset := a.offset + framingLen.toNat
        payloadBytes := a.payloadBytes + storedLen.toNat
        recordCount := a.recordCount + 1
        minExtent := if !a.hasRecord || extent < a.minExtent then extent else a.minExtent
        maxExtent := if !a.hasRecord || a.maxExtent < extent then extent else a.maxExtent
        hasRecord := true })

/-- `Allocator.CanReserveBatch`. -/
def canReserveBatch (required : Nat) : Bool :=
  a.offset + required ≤ a.maxSegmentBytes

/-- `Allocator.CanReserveRecords`. -/
def canReserveRecords (count : Nat) : Bool :=
  a.recordCount + count ≤ a.maxRecords

/-- `Allocator.ReserveCommit`: the offset of a BatchCommit at the tail. -/
def reserveCommit (commitLen : Nat) : Except Err (Nat × Allocator) :=
  if a.maxSegmentBytes < a.offset + commitLen then .error .segmentFull
  else .ok (a.offset, { a with offset := a.offset + commitLen })

/-- `Allocator.CurrentTail`: it asks for the room of a BatchCommit, whatever is to be written. -/
def currentTail : Except Err Nat :=
  if a.maxSegmentBytes < a.offset + batchCommitSize then .error .segmentFull else .ok a.offset

/-- `Allocator.Consume`. -/
def consume (n : Nat) : Allocator := { a with offset := a.offset + n }

/-- `Allocator.RecordCommit`. -/
def recordCommit (seq : UInt64) : Allocator := { a with lastCommitSeq := seq }

end Allocator

end Nufs.Storage
