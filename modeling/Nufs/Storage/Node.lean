/-
A store over its whole life: serving, cut off, crashed and opened again.

A serving node takes the steps of its machine.  It can be cut off between two steps,
or inside a commit or the writing of a marker at any byte.  A crash then keeps the
segment files up to their durable bytes and any first part of what was written
since, the index and the checkpoint; everything in memory is lost.  `New` opens the
store again.  What clients have seen is kept as history.
-/
import Nufs.Storage.Machine

namespace Nufs.Storage

open ByteFile

/-- Where a serving node is cut off. -/
inductive CutOff
  | between
  /-- Inside the commit of a batch, at an operation of it and after some of its bytes. -/
  | commit (ts : List Thread) (now : UInt64) (fault : Nat × Nat)
  /-- Inside the writing of a marker. -/
  | mark (fault : Nat × Nat)

/-- A node, with what clients saw in earlier lives. -/
inductive Node
  | serving (m : Machine) (past : List Event)
  /-- Cut off: only a crash can follow. -/
  | halted (s : Store) (past : List Event)
  | down (disk : Disk) (past : List Event)

/-- What can happen to a node. -/
inductive NodeAction
  | act (a : Action)
  | cutOff (w : CutOff)
  | crash (keep : SegmentID → Nat)
  | reopen (clock : RecoveryClock) (now : UInt64)

/-- Reads, writes and background work of one store; the compactor is not part of it. -/
def Action.isServing : Action → Bool
  | .append _ _ _ _ _ => false
  | .relocateCheck _ => false
  | .relocatePut _ => false
  | _ => true

/-- The store of a machine that is cut off, and what clients cannot be sure of. -/
def Machine.cutOff (m : Machine) : CutOff → Option (Store × List Event)
  | .between => some (m.store, [])
  | .commit ts now fault =>
    if m.flushing.isSome ∨ ts = [] ∨ ¬ ts.Nodup then none
    else
      (ts.mapM m.submitted).map fun batch =>
        ((Store.commitBatch (some fault) now (batch.map Prod.snd) m.store).2,
          batch.map fun p => .interrupted p.2.key p.2.header.op)
  | .mark fault =>
    match m.flushing with
    | some (fl, .applied) => some ((m.store.writeIndexSafeLocked (some fault) fl.safe).2, [])
    | _ => none

namespace Node

/-- A node on an empty disk. -/
def fresh : Node := .down ⟨∅, ∅, none⟩ []

/-- One step of a node. -/
def step (c : FrameCodec) (cfg : Config) : Node → NodeAction → Option Node
  | .serving m past, .act a =>
    if a.isServing then (m.step c a).map fun m => .serving m past else none
  | .serving m past, .cutOff w =>
    (m.cutOff w).map fun r => .halted r.1 (r.2 ++ (m.log ++ past))
  | .halted s past, .crash keep => some (.down ⟨s.files.crash keep, s.index, s.checkpoint⟩ past)
  | .down disk past, .reopen clock now =>
    match Store.new cfg clock now disk with
    | .error _ => none
    | .ok s => some (.serving (.init s) past)
  | _, _ => none

end Node

/-- A delete of the extent was committed, or cut off in its commit. -/
def deleteCommitted (log : List Event) (k : Key) : Prop :=
  .committed k .delete ∈ log ∨ .interrupted k .delete ∈ log
  deriving Decidable

/-- The checksum of the last acknowledged operation on an extent, if that was a write. -/
def lastWrite : List Event → Key → Option UInt32
  | [], _ => none
  | .acked k' sum :: log, k => if k' = k then some sum else lastWrite log k
  | .deleted k' :: log, k => if k' = k then none else lastWrite log k
  | _ :: log, k => lastWrite log k

end Nufs.Storage
