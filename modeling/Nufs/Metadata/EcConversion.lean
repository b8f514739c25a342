/-
Conversions of chunks into shards, and sweeps that reclaim shards.

A conversion is a run of requests to the registry with writes of shards in between.  A
request may be carried out and its answer lost; the run then fails and rolls back.  A sweep
reads the stripes, the row of the chunk and the stripe the row names, one after the other,
and deletes the shards of the chunk if the verdict says so.  Runs and sweeps of any number
of processes take their steps in any order.
-/
import Nufs.Metadata.EcLifecycle

namespace Nufs.Ec

open Nufs.Metadata Nufs.Chunks

/-- How far a run of `ConvertReplica` and its publication is. -/
inductive RunPhase
  | begun
  /-- The plan is there and this many shards are written. -/
  | writing (written : Nat)
  | syncing
  | complete
  /-- `SwitchChunkToEC` has read the stripe, and then the row of the chunk. -/
  | switching (st : ECStripe) (chunk : Option ChunkMeta)
  /-- Some step failed, or its answer was lost. -/
  | failing
  deriving DecidableEq, Repr

/-- The stripe that conversions of a chunk use, the first one and every later one. -/
def stripeOf (chunk : ChunkID) : List Char := "stripe-".toList ++ decimal chunk

/-- A run, with its copy of the stripe. -/
structure ConversionRun where
  chunk : ChunkID
  st : ECStripe
  phase : RunPhase
  deriving DecidableEq, Repr

/-- How far a sweep of one chunk is. -/
inductive SweepPhase
  | listed (governing : Option ECStripe)
  | read (governing : Option ECStripe) (chunk : Option ChunkMeta)
  | deleting
  deriving DecidableEq, Repr

/-- A sweep of one chunk. -/
structure Sweep where
  chunk : ChunkID
  cutoff : Time
  phase : SweepPhase
  deriving DecidableEq, Repr

/-- The registry, the shards that have been deleted since they were last written, and the
runs and sweeps that are under way. -/
structure World where
  reg : Registry
  deleted : ChunkID → Nat → Bool
  runs : Nat → Option ConversionRun
  sweeps : Nat → Option Sweep

/-- A step of a run or of a sweep. -/
inductive Event
  /-- `BeginConversion`. -/
  | begin (run : Nat) (chunk : ChunkID) (gen : UInt64) (sum : UInt32)
  /-- `PlanShards`, with the turns its loop takes.  This and the later requests go to the run's
  copy of the stripe, or to the row where the registry is a remote one. -/
  | plan (run turns : Nat) (remote : Bool) (disks : List ECDisk)
  /-- The next shard is written to its store. -/
  | writeShard (run : Nat)
  /-- `MarkSyncing`. -/
  | markSyncing (run : Nat) (remote : Bool)
  /-- `CompleteConversion`, after the shards have been verified. -/
  | complete (run : Nat) (remote : Bool) (now : Time)
  /-- `SwitchChunkToEC` reads the stripe. -/
  | switchStripe (run : Nat)
  /-- It reads the row of the chunk. -/
  | switchChunk (run : Nat)
  /-- The write of `SwitchChunkToEC`, and the end of the run. -/
  | switchWrite (run : Nat)
  /-- A step of the run failed, or the answer to its last request was lost. -/
  | fail (run : Nat)
  /-- `RollbackConversion`, and the end of the run. -/
  | rollback (run : Nat) (remote : Bool) (now : Time)
  /-- The process of a run ends. -/
  | stop (run : Nat)
  /-- The sweep lists the stripes. -/
  | sweepList (sweep : Nat) (chunk : ChunkID) (olderThan now : Time)
  /-- The sweep reads the row of the chunk. -/
  | sweepChunk (sweep : Nat)
  /-- The sweep reads the stripe that the row names and decides. -/
  | sweepDecide (sweep : Nat)
  /-- `DeleteShard`. -/
  | deleteShard (sweep index : Nat)
  /-- The sweep is done with the chunk. -/
  | sweepEnd (sweep : Nat)

/-- The layout `SwitchChunkToEC` gives a chunk; where the nodes are is looked up. -/
def switchedLayout (addrOf : NodeID → List Char) (st : ECStripe) (chunk : ChunkMeta) : ChunkMeta :=
  { chunk with
    state := .ready
    replicas := st.shards.map fun sh =>
      { nodeID := sh.nodeID, addr := addrOf sh.nodeID, state := .syncing, diskPath := []
        shardIndex := sh.index }
    ecGroup := some (groupOf ⟨6, 3⟩ st.stripeID)
    checksum := st.originalChecksum
    ecStripeID := st.stripeID }

namespace World

variable (w : World)

def setRun (run : Nat) (r : Option ConversionRun) : World :=
  { w with runs := Function.update w.runs run r }

def setSweep (sweep : Nat) (s : Option Sweep) : World :=
  { w with sweeps := Function.update w.sweeps sweep s }

def setDeleted (chunk : ChunkID) (index : Nat) (gone : Bool) : World :=
  { w with deleted := fun c i => if c = chunk ∧ i = index then gone else w.deleted c i }

/-- The stripe a request of a run works on. -/
def copyOf (r : ConversionRun) (remote : Bool) : ECStripe :=
  if remote then (w.reg.stripes.get r.st.stripeID).getD r.st else r.st

/-- A stripe is written. -/
def putStripe (st : ECStripe) : World := { w with reg := w.reg.putStripe st }

/-- One step; nothing, where the step is not possible. -/
def step (addrOf : NodeID → List Char) : Event → Option World
  | .begin run chunk gen sum =>
    if (w.runs run).isSome then none
    else
      let st : ECStripe :=
        { stripeID := stripeOf chunk, extentID := chunk, generation := gen
          originalChecksum := sum, state := .preparing }
      some ((w.putStripe st).setRun run (some ⟨chunk, st, .begun⟩))
  | .plan run turns remote disks => do
      let r ← w.runs run
      if r.phase ≠ .begun then none
      else
        match planShards turns (w.copyOf r remote) disks with
        | some (.ok st) => some ((w.putStripe st).setRun run (some ⟨r.chunk, st, .writing 0⟩))
        | _ => none
  | .writeShard run => do
      let r ← w.runs run
      match r.phase with
      | .writing k =>
        if k < totalShards then
          some ((w.setDeleted r.chunk k false).setRun run
            (some { r with phase := .writing (k + 1) }))
        else none
      | _ => none
  | .markSyncing run remote => do
      let r ← w.runs run
      if r.phase ≠ .writing totalShards then none
      else
        let st := { w.copyOf r remote with state := .syncing }
        some ((w.putStripe st).setRun run (some ⟨r.chunk, st, .syncing⟩))
  | .complete run remote now => do
      let r ← w.runs run
      if r.phase ≠ .syncing then none
      else
        let st := { w.copyOf r remote with state := .complete, convertedAt := now }
        some ((w.putStripe st).setRun run (some ⟨r.chunk, st, .complete⟩))
  | .switchStripe run => do
      let r ← w.runs run
      if r.phase ≠ .complete then none
      else
        let st ← w.reg.stripes.get r.st.stripeID
        if st.state ≠ .complete then none
        else some (w.setRun run (some { r with phase := .switching st none }))
  | .switchChunk run => do
      let r ← w.runs run
      match r.phase with
      | .switching st none =>
        let chunk ← w.reg.chunks st.extentID
        some (w.setRun run (some { r with phase := .switching st (some chunk) }))
      | _ => none
  | .switchWrite run => do
      let r ← w.runs run
      match r.phase with
      | .switching st (some chunk) =>
        (w.reg.updateLiveChunk chunk (switchedLayout addrOf st chunk)).toOption.map fun reg =>
          World.setRun { w with reg } run none
      | _ => none
  | .fail run => do
      let r ← w.runs run
      match r.phase with
      | .switching _ _ => none
      | _ => some (w.setRun run (some { r with phase := .failing }))
  | .rollback run remote now => do
      let r ← w.runs run
      if r.phase ≠ .failing then none
      else
        let st := { w.copyOf r remote with state := .rolledBack, rolledBackAt := now }
        some ((w.putStripe st).setRun run none)
  | .stop run => some (w.setRun run none)
  | .sweepList sweep chunk olderThan now =>
    if (w.sweeps sweep).isSome ∨ olderThan ≤ 0 then none
    else some (w.setSweep sweep
      (some ⟨chunk, now - olderThan, .listed (w.reg.stripes.governing chunk)⟩))
  | .sweepChunk sweep => do
      let s ← w.sweeps sweep
      match s.phase with
      | .listed governing =>
        some (w.setSweep sweep (some { s with phase := .read governing (w.reg.chunks s.chunk) }))
      | _ => none
  | .sweepDecide sweep => do
      let s ← w.sweeps sweep
      match s.phase with
      | .read governing chunk =>
        if verdict governing (w.reg.stripes.ownComplete chunk) s.cutoff then
          some (w.setSweep sweep (some { s with phase := .deleting }))
        else some (w.setSweep sweep none)
      | _ => none
  | .deleteShard sweep index => do
      let s ← w.sweeps sweep
      if s.phase ≠ .deleting then none
      else some (w.setDeleted s.chunk index true)
  | .sweepEnd sweep => some (w.setSweep sweep none)

end World

end Nufs.Ec
