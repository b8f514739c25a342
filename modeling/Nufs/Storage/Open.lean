/-
Flushing the overlay into the index, and opening a store.

A flush drains the overlay, applies it to the index, writes an INDEX_SAFE marker
behind the log and stores a checkpoint that points behind the marker.  It is given
in phases, since the apply loop runs between them and a crash may fall there.
`New` recovers the segment with the highest number, flushes what it found there and
opens a fresh segment.
-/
import Nufs.Storage.Requests

namespace Nufs.Storage

open ByteFile

/-! ### Flush -/

/-- What a flush in progress holds. -/
structure Flush where
  safe : UInt64
  pending : Int
  muts : List Mutation
  deriving DecidableEq

namespace Store

/-- Drain the overlay; there may be nothing to flush. -/
def flushDrain (s : Store) : Option Flush × Store :=
  let muts := s.overlay.drained
  (if muts = [] then none else some ⟨s.flushSeq, s.flushMutations, muts⟩,
    { s with overlay := s.overlay.drain })

/-- `Store.writeIndexSafeLocked`: the marker, and the checkpoint that points behind it. -/
def writeIndexSafeLocked (fault : Fault) (safeSeq : UInt64) (s : Store) :
    Except Err RecoveryCheckpoint × Store :=
  match s.alloc.currentTail with
  | .error e => (.error e, s)
  | .ok tail =>
    match runOps [.write s.alloc.segmentID tail (CommitRecord.indexSafe safeSeq).encode,
        .sync s.alloc.segmentID] fault s.files with
    | (false, _, files) => (.error .ioError, { s with files })
    | (true, _, files) =>
      (.ok ⟨s.alloc.segmentID, tail + commitRecordSize, safeSeq⟩,
        { s with files, alloc := s.alloc.consume commitRecordSize })

/-- `StoreRecoveryCheckpoint`: the file is replaced in one step. -/
def storeRecoveryCheckpoint (cp : RecoveryCheckpoint) (s : Store) : Except Err Store :=
  if cp.segmentID = 0 ∨ cp.safeOffset < segmentHeaderSize ∨ cp.safeSeq = 0 then
    .error (.message "storage: invalid recovery checkpoint")
  else .ok { s with checkpoint := some cp }

/-- The end of a flush that succeeded. -/
def flushDone (fl : Flush) (s : Store) : Store :=
  { s with
    overlay := s.overlay.discardDrained
    safeSeq := fl.safe
    flushMutations := s.flushMutations - fl.pending }

/-- The end of a flush that failed: what was drained goes back. -/
def flushAbort (s : Store) : Store :=
  { s with overlay := s.overlay.restoreDrained }

/-- `Store.flush` without interruption. -/
def flush (s : Store) : Except Err Unit × Store :=
  match flushDrain s with
  | (none, s) => (.ok (), s)
  | (some fl, s) =>
    match writeIndexSafeLocked none fl.safe (s.applyNow fl.muts) with
    | (.error e, s) => (.error e, s.flushAbort)
    | (.ok cp, s) =>
      match storeRecoveryCheckpoint cp s with
      | .error e => (.error e, s.flushAbort)
      | .ok s => (.ok (), s.flushDone fl)

end Store

/-! ### Opening -/

/-- The recovery limits of a store. -/
structure RecoveryPolicy where
  maxRecords : Nat
  maxReplayBytes : Int
  maxTrailingBytes : Int

/-- When the recovery deadline has passed: while the log is read, and at the later checks. -/
structure RecoveryClock where
  reading : Nat → Bool
  starting : Nat → Bool

/-- The configuration `New` reads. -/
structure Config where
  streamID : UInt8
  segmentSize : Nat
  policy : RecoveryPolicy

/-- What survives of a store. -/
structure Disk where
  files : Dir
  index : Index
  checkpoint : Option RecoveryCheckpoint

/-- `maxSegmentID`: the highest number of a segment file, zero if there is none. -/
def maxSegmentID (files : Dir) : SegmentID :=
  files.keys.foldr max 0

/-- What recovery does with a committed record: publish it, but skip relocations. -/
def recoverApply (d : CommitDescriptor) (o : Overlay) : Except Err Overlay :=
  let value (state : ExtentState) : Value :=
    { segmentID := d.segmentID, offset := d.offset, storedLen := d.storedLen
      logicalLen := d.logicalLen, state, checksum := d.checksum }
  match d.op with
  | .put => .ok (o.put (d.extentID, d.generation) (value .durable))
  | .delete => .ok (o.put (d.extentID, d.generation) (value .tombstoned))
  | .relocate => .ok o

/-- The options `recoverActiveSegment` passes: a checkpoint counts for its own segment only. -/
def recoverOptions (cfg : Config) (clock : RecoveryClock) (checkpoint : Option RecoveryCheckpoint)
    (segID : SegmentID) : RecoverOptions :=
  let start : Nat × UInt64 :=
    match checkpoint with
    | some cp => if cp.segmentID = segID then (cp.safeOffset, cp.safeSeq) else (segmentHeaderSize, 0)
    | none => (segmentHeaderSize, 0)
  { streamID := cfg.streamID
    safeOffset := start.1
    safeSeq := start.2
    requireSafeMarker := segmentHeaderSize < start.1
    maxRecords := cfg.policy.maxRecords
    maxReplayBytes := cfg.policy.maxReplayBytes
    maxTrailingBytes := cfg.policy.maxTrailingBytes
    expired := clock.reading }

namespace Store

/-- `Store.recoverActiveSegment`, on the segment with the highest number. -/
def recoverActiveSegment (cfg : Config) (clock : RecoveryClock) (s : Store) : Except Err Store :=
  let segID := maxSegmentID s.files
  match s.files.lookup segID with
  | none => if clock.starting 0 then .error .recoveryBudgetExceeded else .ok s
  | some file =>
    let out := recoverFromSegmentLog segID (recoverOptions cfg clock s.checkpoint segID)
      (some recoverApply) s.overlay file.bytes
    match out.err, out.result with
    | some e, _ => .error e
    | none, none => .error .ioError
    | none, some res => .ok
        { s with
          files := s.files.insert segID
            (if 0 < res.trailingBytes then ⟨out.file, out.file⟩ else file)
          overlay := out.sink
          safeSeq := if 0 < res.safeSeq then res.safeSeq else s.safeSeq
          streamSeq := max res.lastSeq s.streamSeq
          publishedSeq := if 0 < res.lastSeq then res.lastSeq else s.publishedSeq
          flushSeq := if 0 < res.lastSeq then res.lastSeq else s.flushSeq }

/-- `Store.persistRecoveredOverlay`. -/
def persistRecoveredOverlay (clock : RecoveryClock) (now : UInt64) (s : Store) : Except Err Store :=
  let segID := maxSegmentID s.files
  if clock.starting 1 then .error .recoveryBudgetExceeded
  else if s.overlay.entries.keys = [] then .ok s
  else
    match s.files.lookup segID with
    | none => .error .ioError
    | some file =>
      if file.bytes.length < segmentHeaderSize then
        .error (.message "storage: recovered segment shorter than header")
      else
        let alloc : Allocator := .new segID (classForStream s.streamID) s.segmentSize now
        let alloc := alloc.consume (file.bytes.length - segmentHeaderSize)
        match flush { s with alloc := alloc.recordCommit s.streamSeq } with
        | (.error e, _) => .error e
        | (.ok _, s) => if clock.starting 2 then .error .recoveryBudgetExceeded else .ok s

/-- `New`, without an injected fault. -/
def new (cfg : Config) (clock : RecoveryClock) (now : UInt64) (disk : Disk) : Except Err Store :=
  match recoverActiveSegment cfg clock
      (.opening cfg.streamID cfg.segmentSize disk.files disk.index disk.checkpoint) with
  | .error e => .error e
  | .ok s =>
    match persistRecoveredOverlay clock now s with
    | .error e => .error e
    | .ok s =>
      match newActiveSegment none now (classForStream cfg.streamID)
          { s with nextSeg := maxSegmentID s.files } with
      | (.error e, _, _) => .error e
      | (.ok _, _, s) => if clock.starting 3 then .error .recoveryBudgetExceeded else .ok s

end Store

end Nufs.Storage
