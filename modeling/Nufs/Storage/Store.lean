/-
The segment store: committing batches, sealing, flushing and opening.

A `Store` is one commit stream with its segment files, its index and what it keeps
in memory.  Functions take the store and return what the call returns together
with the store afterwards, also where the call fails: a reservation that was made
before an error stays made.

Work on segment files goes through operation lists with a fault, so that a call
that fails half way and a crash in the middle of a call are the same thing.
-/
import Nufs.Lib.FileOps
import Nufs.Storage.Allocator
import Nufs.Storage.Frames
import Nufs.Storage.Overlay
import Nufs.Storage.Recover

namespace Nufs.Storage

open ByteFile

/-! ### The store -/

/-- `index.RecoveryCheckpoint` of a store's stream. -/
structure RecoveryCheckpoint where
  segmentID : SegmentID
  safeOffset : Nat
  safeSeq : UInt64
  deriving DecidableEq, Repr

/-- `recoveryPublishBatch`, filed under its previous sequence. -/
structure PublishBatch where
  seq : UInt64
  mutations : Nat
  deriving DecidableEq, Repr

/-- `Store`. -/
structure Store where
  streamID : UInt8
  segmentSize : Nat
  /-- The segment files of the stream, by segment number. -/
  files : Dir
  index : Index
  /-- The recovery checkpoint kept with the index. -/
  checkpoint : Option RecoveryCheckpoint
  overlay : Overlay
  alloc : Allocator
  nextSeg : SegmentID
  streamSeq : UInt64
  publishedSeq : UInt64
  readyBatches : AList (fun _ : UInt64 => PublishBatch)
  flushSeq : UInt64
  flushMutations : Int
  safeSeq : UInt64
  /-- Mutation batches waiting for the apply loop. -/
  applyCh : List (List Mutation)
  locCache : Index

/-- `classForStream`. -/
def classForStream (streamID : UInt8) : SegmentClass :=
  if streamID = 0 then .small else .data

/-- The header `newActiveSegment` writes. -/
def newSegmentHeader (segID : SegmentID) (segmentClass : SegmentClass) : SegmentHeader where
  magic := segmentMagic
  version := formatVersion
  id := UInt64.ofNat segID
  segmentClass
  reserved := 0

/-- The store `New` starts from: what is on disk, and nothing in memory. -/
def Store.opening (streamID : UInt8) (segmentSize : Nat) (files : Dir) (index : Index)
    (checkpoint : Option RecoveryCheckpoint) : Store where
  streamID
  segmentSize := if segmentSize = 0 then defaultDataSegmentSize else segmentSize
  files
  index
  checkpoint
  overlay := .empty
  alloc := .new 0 (classForStream streamID) segmentSize 0
  nextSeg := 0
  streamSeq := 0
  publishedSeq := 0
  readyBatches := ∅
  flushSeq := 0
  flushMutations := 0
  safeSeq := 0
  applyCh := []
  locCache := ∅

namespace Store

/-- `Store.lookup`: the overlay first, then the index. -/
def lookup (s : Store) (k : Key) : Option Value :=
  (s.overlay.get k).or (s.index.lookup k)

/-- `Store.applyNow`. -/
def applyNow (s : Store) (muts : List Mutation) : Store :=
  { s with index := s.index.applyNow muts }

/-- The room of `applyCh`. -/
def applyCap : Nat := 256

/-- `Store.enqueueApply`: queue the mutations, or apply them at once if the queue is full. -/
def enqueueApply (s : Store) (muts : List Mutation) : Store :=
  if s.applyCh.length < applyCap then { s with applyCh := s.applyCh ++ [muts] }
  else s.applyNow muts

/-! ### Segments -/

/-- `Store.newActiveSegment`: the number is taken before the file is opened. -/
def newActiveSegment (fault : Fault) (now : UInt64) (segmentClass : SegmentClass) (s : Store) :
    Except Err Unit × Fault × Store :=
  let segID := s.nextSeg + 1
  let s := { s with nextSeg := segID }
  match runOps [.create segID, .write segID 0 (newSegmentHeader segID segmentClass).encode]
      fault s.files with
  | (false, fault, files) => (.error .ioError, fault, { s with files })
  | (true, fault, files) =>
    (.ok (), fault,
      { s with files, alloc := .new segID segmentClass s.segmentSize now })

/-- The footer `sealActiveLocked` starts from. -/
def sealFooter (a : Allocator) (now : UInt64) : SegmentFooter where
  magic := segmentMagic
  version := formatVersion
  recordCount := UInt64.ofNat a.recordCount
  totalPayload := UInt64.ofNat a.payloadBytes
  minExtentID := a.minExtent
  maxExtentID := a.maxExtent
  lastCommittedSeq := a.lastCommitSeq
  createdAtUnix := a.createdAt
  sealedAtUnix := now
  segmentCRC := 0

/-- The checks of `Writer.WriteFooter`, with the footer they let through. -/
def checkFooter (file : List UInt8) (offset : Nat) (footer : SegmentFooter) :
    Except Err SegmentFooter :=
  if file.length ≠ offset then
    .error (.message
      s!"storage: seal offset {offset} does not match segment size {file.length}")
  else
    match sealedSegmentCRC file offset (footer.encode.take segmentFooterCRCOffset) with
    | .error e => .error e
    | .ok crc =>
      if crc = 0 then
        .error (.message "storage: refusing to seal segment with unset crc")
      else .ok { footer with segmentCRC := crc }

/-- `Store.sealActiveLocked`. -/
def sealActiveLocked (fault : Fault) (now : UInt64) (s : Store) : Except Err Unit × Fault × Store :=
  match s.files.lookup s.alloc.segmentID with
  | none => (.error .ioError, fault, s)
  | some file =>
    match checkFooter file.bytes s.alloc.offset (sealFooter s.alloc now) with
    | .error e => (.error e, fault, s)
    | .ok footer =>
      match runOps [.write s.alloc.segmentID s.alloc.offset footer.encode,
          .sync s.alloc.segmentID, .sync s.alloc.segmentID] fault s.files with
      | (false, fault, files) => (.error .ioError, fault, { s with files })
      | (true, fault, files) =>
        newActiveSegment fault now s.alloc.segmentClass { s with files }

end Store

/-! ### Pending writes -/

/-- `pendingWrite`, as its submitter builds it. -/
structure PendingWrite where
  header : RecordHeader
  idxBuf : List UInt8
  stored : List UInt8
  /-- The value to publish in place of the record's own location. -/
  publishedValue : Option Value
  deriving DecidableEq, Repr

namespace PendingWrite

def key (pw : PendingWrite) : Key := (pw.header.extentID, pw.header.generation)

/-- The bytes the allocator reserves for the record. -/
def framing (pw : PendingWrite) : UInt32 :=
  recordFraming pw.header.storedLen pw.header.frameCount.toNat

/-- The bytes the record is written as. -/
def bytes (pw : PendingWrite) : List UInt8 :=
  encodeRecordFramed pw.header pw.idxBuf pw.stored

end PendingWrite

/-- A pending write with what the coordinator sets. -/
structure PlacedWrite extends PendingWrite where
  segID : SegmentID
  offset : Nat
  streamSeq : UInt64

namespace PlacedWrite

/-- The location of the record, in a given state. -/
def location (pw : PlacedWrite) (state : ExtentState) : Value where
  segmentID := pw.segID
  offset := pw.offset
  storedLen := pw.header.storedLen
  logicalLen := pw.header.logicalLen
  state
  checksum := pw.header.payloadChecksum

/-- What a committed write puts into the overlay. -/
def published (pw : PlacedWrite) : Value :=
  pw.publishedValue.getD (pw.location .durable)

def descriptor (pw : PlacedWrite) : CommitDescriptor :=
  pw.header.descriptor pw.segID pw.offset

end PlacedWrite

namespace Store

/-! ### Committing a batch -/

/-- The bytes a batch needs: its records and one BatchCommit. -/
def required (batch : List PendingWrite) : Nat :=
  batchCommitSize + (batch.map fun pw => pw.framing.toNat).sum

/-- The preflight of `commitBatch`. -/
def fits (a : Allocator) (batch : List PendingWrite) : Bool :=
  a.canReserveBatch (required batch) && a.canReserveRecords batch.length

/-- Make sure the active segment has room for a batch, sealing it at most once. -/
def rotate (fault : Fault) (now : UInt64) (batch : List PendingWrite) (s : Store) :
    Except Err Unit × Fault × Store :=
  if fits s.alloc batch then (.ok (), fault, s)
  else
    match sealActiveLocked fault now s with
    | (.error e, fault, s) => (.error e, fault, s)
    | (.ok _, fault, s) =>
      if fits s.alloc batch then (.ok (), fault, s) else (.error .segmentFull, fault, s)

/-- The reservation loop of `commitBatch`. -/
def reserveRecords : List PendingWrite → Store → Except Err (List PlacedWrite) × Store
  | [], s => (.ok [], s)
  | pw :: batch, s =>
    match s.alloc.reserve pw.framing pw.header.extentID pw.header.storedLen with
    | .error e => (.error e, s)
    | .ok (offset, alloc) =>
      let placed : PlacedWrite :=
        { pw with segID := s.alloc.segmentID, offset, streamSeq := s.streamSeq }
      match reserveRecords batch { s with alloc, streamSeq := s.streamSeq + 1 } with
      | (.error e, s) => (.error e, s)
      | (.ok placedRest, s) => (.ok (placed :: placedRest), s)

/-- The BatchCommit of a placed batch. -/
def batchCommit (s : Store) (placed : List PlacedWrite) (commitOffset : Nat) : BatchCommit where
  magic := batchCommitMagic
  version := formatVersion
  streamID := s.streamID
  seq := s.streamSeq
  recordCount := UInt32.ofNat placed.length
  firstOffset := UInt64.ofNat ((placed.head?.map PlacedWrite.offset).getD 0)
  lastOffset := UInt64.ofNat commitOffset
  descriptorsCRC := descriptorCRC (placed.map PlacedWrite.descriptor)

/-- What `commitBatch` does to the segment file, up to the stage behind the barrier. -/
def commitOps (segID : SegmentID) (placed : List PlacedWrite) (commitOffset : Nat)
    (commit : BatchCommit) : List FileOp :=
  (placed.map fun pw => .write segID pw.offset pw.bytes) ++
    [.stage, .write segID commitOffset commit.encode, .stage, .sync segID, .stage]

/-- `publishRecoveryBatch` once all members are published: move the watermark through the
contiguous batches.  Every round takes one batch out, so their number is fuel enough. -/
def publishReady : Nat → Store → Store
  | 0, s => s
  | n + 1, s =>
    match s.readyBatches.lookup s.publishedSeq with
    | none => s
    | some next =>
      publishReady n
        { s with
          readyBatches := s.readyBatches.erase s.publishedSeq
          publishedSeq := next.seq
          flushSeq := next.seq
          flushMutations := s.flushMutations + next.mutations }

/-- `Store.publishRecoveryBatch`. -/
def publishRecoveryBatch (previousSeq seq : UInt64) (mutations : Nat) (s : Store) : Store :=
  let ready := s.readyBatches.insert previousSeq ⟨seq, mutations⟩
  publishReady ready.keys.length { s with readyBatches := ready }

/-- Publish the committed locations to the overlay. -/
def putPlaced (o : Overlay) (placed : List PlacedWrite) : Overlay :=
  placed.foldl (fun o pw => o.put pw.key pw.published) o

/-- The part of `commitBatch` behind the barrier. -/
def publishBatch (fault : Fault) (placed : List PlacedWrite) (s : Store) :
    Except Err (List PlacedWrite) × Store :=
  let s := { s with alloc := s.alloc.recordCommit s.streamSeq }
  match runOps [.stage] fault s.files with
  | (false, _, _) => (.error .ioError, s)
  | (true, fault, _) =>
    let s := { s with overlay := putPlaced s.overlay placed }
    match runOps [.stage] fault s.files with
    | (false, _, _) => (.error .ioError, s)
    | (true, _, _) =>
      (.ok placed,
        publishRecoveryBatch (s.streamSeq - UInt64.ofNat placed.length) s.streamSeq
          placed.length s)

/-- Reserve, append and publish a batch that fits the active segment. -/
def appendBatch (fault : Fault) (batch : List PendingWrite) (s : Store) :
    Except Err (List PlacedWrite) × Store :=
  match reserveRecords batch s with
  | (.error e, s) => (.error e, s)
  | (.ok placed, s) =>
    match s.alloc.reserveCommit batchCommitSize with
    | .error e => (.error e, s)
    | .ok (commitOffset, alloc) =>
      let s := { s with alloc }
      match runOps (commitOps s.alloc.segmentID placed commitOffset
          (s.batchCommit placed commitOffset)) fault s.files with
      | (false, _, files) => (.error .ioError, { s with files })
      | (true, fault, files) => publishBatch fault placed { s with files }

/-- `Store.commitBatch`: the placed writes, if the batch was committed. -/
def commitBatch (fault : Fault) (now : UInt64) (batch : List PendingWrite) (s : Store) :
    Except Err (List PlacedWrite) × Store :=
  match rotate fault now batch s with
  | (.error e, _, s) => (.error e, s)
  | (.ok _, fault, s) => appendBatch fault batch s

end Store

end Nufs.Storage
