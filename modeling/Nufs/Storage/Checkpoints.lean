/-
Commits and flushes of a store whose asynchronous applies are disabled.

A flush holds the commit lock from the draining of the overlay to the end, so a run
is a sequence of whole commits and whole flushes.  A flush can fail in each of its
steps; what it drained then goes back to the overlay, and what it did before stays
done.  The records that were committed are kept in the order of their commits.
-/
import Nufs.Storage.Open

namespace Nufs.Storage

open ByteFile

/-- Where a flush fails. -/
inductive FlushFault
  | apply (err : Err)
  | indexFlush (err : Err)
  /-- In the write of the marker, after some of its bytes, or in its sync. -/
  | marker (fault : Nat × Nat)
  /-- In the storing of the checkpoint, before or after the new file has replaced the old. -/
  | checkpoint (err : Err) (replaced : Bool)

/-- The fault the marker write meets. -/
def FlushFault.markerFault : Option FlushFault → Fault
  | some (.marker fault) => some fault
  | _ => none

namespace Store

/-- `StoreRecoveryCheckpoint` and the end of `Store.flush`, behind the marker. -/
def flushCheckpoint (fault : Option FlushFault) (fl : Flush) (cp : RecoveryCheckpoint)
    (s : Store) : Except Err Unit × Store :=
  match storeRecoveryCheckpoint cp s, fault with
  | .error e, _ => (.error e, s.flushAbort)
  | .ok stored, some (.checkpoint e replaced) =>
    (.error e, (if replaced then stored else s).flushAbort)
  | .ok stored, _ => (.ok (), stored.flushDone fl)

/-- `Store.flush` behind the flush of the index. -/
def flushMarker (fault : Option FlushFault) (fl : Flush) (s : Store) : Except Err Unit × Store :=
  match writeIndexSafeLocked (FlushFault.markerFault fault) fl.safe s with
  | (.error e, s) => (.error e, s.flushAbort)
  | (.ok cp, s) => flushCheckpoint fault fl cp s

/-- `Store.flush`, with the step that fails. -/
def flushWith (fault : Option FlushFault) (s : Store) : Except Err Unit × Store :=
  match flushDrain s with
  | (none, s) => (.ok (), s)
  | (some fl, s) =>
    match fault with
    | some (.apply e) => (.error e, s.flushAbort)
    | some (.indexFlush e) => (.error e, (s.applyNow fl.muts).flushAbort)
    | fault => flushMarker fault fl (s.applyNow fl.muts)

end Store

/-- A pending write as `Write` and `Delete` submit it. -/
def PendingWrite.isRequest (pw : PendingWrite) : Bool :=
  match pw.header.op, pw.publishedValue with
  | .put, none => true
  | .delete, some v => v.state = .tombstoned
  | _, _ => false

/-- A store and the records committed so far, oldest first. -/
structure Checkpointed where
  store : Store
  commits : List PlacedWrite

/-- What happens to it. -/
inductive CheckpointAction
  | commit (batch : List PendingWrite) (now : UInt64)
  | flush (fault : Option FlushFault)

namespace Checkpointed

/-- One whole commit or flush; a batch may find no room. -/
def step (c : Checkpointed) : CheckpointAction → Checkpointed
  | .commit batch now =>
    if batch = [] ∨ batch.all PendingWrite.isRequest = false then c
    else
      match Store.commitBatch none now batch c.store with
      | (.error _, s) => ⟨s, c.commits⟩
      | (.ok placed, s) => ⟨s, c.commits ++ placed⟩
  | .flush fault => ⟨(c.store.flushWith fault).2, c.commits⟩

def run (c : Checkpointed) (acts : List CheckpointAction) : Checkpointed :=
  acts.foldl step c

end Checkpointed

/-- The record lies before the offset of a checkpoint, in its segment. -/
def PlacedWrite.before (pw : PlacedWrite) (cp : RecoveryCheckpoint) : Prop :=
  pw.segID = cp.segmentID ∧ pw.offset < cp.safeOffset

end Nufs.Storage
