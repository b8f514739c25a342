/-
A store over its whole life, the compactor and interrupted openings included.

A node serves all actions of its machine.  It can be cut off wherever a node of
`Node` can, and inside an append of the compactor.  `New` can be cut off as well:
behind the replay, in the flush of what was replayed, or in the creation of the new
segment file.  A crash follows, and what survives is opened again.
-/
import Nufs.Storage.Node

namespace Nufs.Storage

open ByteFile

/-! ### Openings that are cut off -/

/-- Where `New` is cut off. -/
inductive OpeningCut
  /-- The log is replayed and its invalid end is cut off. -/
  | recovered
  /-- What was replayed is in the index. -/
  | applied
  /-- Inside the writing of the marker, at an operation and after some of its bytes. -/
  | mark (fault : Nat × Nat)
  /-- The marker is durable, the checkpoint is not stored. -/
  | marked
  /-- Inside the creation of the new segment, or right before it. -/
  | create (fault : Nat × Nat)

namespace Store

/-- The part of `Store.flush` before it is cut off. -/
def flushUntil (cut : OpeningCut) (s : Store) : Option Store :=
  match flushDrain s with
  | (none, _) => none
  | (some fl, s) =>
    match cut with
    | .applied => some (s.applyNow fl.muts)
    | .mark fault => some (writeIndexSafeLocked (some fault) fl.safe (s.applyNow fl.muts)).2
    | .marked =>
      match writeIndexSafeLocked none fl.safe (s.applyNow fl.muts) with
      | (.error _, _) => none
      | (.ok _, s) => some s
    | _ => none

/-- The part of `Store.persistRecoveredOverlay` before its flush is cut off. -/
def persistUntil (clock : RecoveryClock) (now : UInt64) (cut : OpeningCut) (s : Store) :
    Option Store :=
  let segID := maxSegmentID s.files
  if clock.starting 1 then none
  else
    match s.files.lookup segID with
    | none => none
    | some file =>
      if file.bytes.length < segmentHeaderSize then none
      else
        let alloc : Allocator := .new segID (classForStream s.streamID) s.segmentSize now
        let alloc := alloc.consume (file.bytes.length - segmentHeaderSize)
        flushUntil cut { s with alloc := alloc.recordCommit s.streamSeq }

/-- What `New` has made of the disk when it is cut off; `none` if it does not get there. -/
def newUntil (cfg : Config) (clock : RecoveryClock) (now : UInt64) (cut : OpeningCut)
    (disk : Disk) : Option Store :=
  match recoverActiveSegment cfg clock
      (.opening cfg.streamID cfg.segmentSize disk.files disk.index disk.checkpoint) with
  | .error _ => none
  | .ok s =>
    match cut with
    | .recovered => some s
    | .create fault =>
      match persistRecoveredOverlay clock now s with
      | .error _ => none
      | .ok s =>
        some (newActiveSegment (some fault) now (classForStream cfg.streamID)
          { s with nextSeg := maxSegmentID s.files }).2.2
    | cut => persistUntil clock now cut s

end Store

/-! ### Lives -/

/-- Where a serving node is cut off: where a node without a compactor is, or inside an append. -/
inductive Interruption
  | serving (w : CutOff)
  | append (k : Key) (data : List UInt8) (codec : CompressionCodec) (nonce : Nat → List UInt8)
      (now : UInt64) (fault : Nat × Nat)

/-- The store of a machine that is cut off. -/
def Machine.interrupted (c : FrameCodec) (m : Machine) : Interruption → Option Store
  | .serving w => (m.cutOff w).map Prod.fst
  | .append k data codec nonce now fault =>
    match m.flushing, Store.buildAppend c nonce k data codec with
    | none, .ok pw => some (m.store.appendRecord (some fault) now pw).2
    | _, _ => none

/-- A node over its life. -/
inductive Life
  | serving (m : Machine)
  /-- Cut off: only a crash can follow. -/
  | halted (s : Store)
  | down (disk : Disk)

/-- What can happen to it. -/
inductive LifeAction
  | act (a : Action)
  | cutOff (w : Interruption)
  | crash (keep : SegmentID → Nat)
  | reopen (clock : RecoveryClock) (now : UInt64)
  | reopenCut (clock : RecoveryClock) (now : UInt64) (cut : OpeningCut)

namespace Life

/-- A node on an empty disk. -/
def fresh : Life := .down ⟨∅, ∅, none⟩

/-- One step of a life. -/
def step (c : FrameCodec) (cfg : Config) : Life → LifeAction → Option Life
  | .serving m, .act a => (m.step c a).map .serving
  | .serving m, .cutOff w => (m.interrupted c w).map .halted
  | .halted s, .crash keep => some (.down ⟨s.files.crash keep, s.index, s.checkpoint⟩)
  | .down disk, .reopen clock now =>
    match Store.new cfg clock now disk with
    | .error _ => none
    | .ok s => some (.serving (.init s))
  | .down disk, .reopenCut clock now cut => (Store.newUntil cfg clock now cut disk).map .halted
  | _, _ => none

end Life

end Nufs.Storage
