/-
Heartbeats: what a datanode tells the metadata service of its chunks.

A report carries the difference between the last snapshot of the store and the states that
were acknowledged.  Only the loop sends, so reports do not overlap; but the store changes and
full syncs are asked for at any point of `send`, whose steps are between its locks.  A
snapshot has every chunk of the store: no `ListExtents` fails.
-/
import Mathlib.Data.UInt

namespace Nufs.Heartbeat

/-- `ChunkID`. -/
abbrev ChunkID := UInt64

/-- `ReplicaState`, as far as a datanode reports it. -/
inductive ReplicaState
  | ready
  | failed
  deriving DecidableEq, Repr

/-- A map from chunks to states. -/
structure ChunkStates where
  keys : Finset ChunkID := ∅
  state : ChunkID → ReplicaState := fun _ => .ready

def ChunkStates.get (m : ChunkStates) (id : ChunkID) : Option ReplicaState :=
  if id ∈ m.keys then some (m.state id) else none

/-- `HeartbeatReporter`. -/
structure HeartbeatReporter where
  lastKnownState : ChunkStates := {}
  forceFullSync : Bool := false
  lastSnapshot : Option ChunkStates := none
  lastSnapshotVer : UInt64 := 0
  lastFullSyncVer : UInt64 := 0
  fullSyncCounter : Nat := 0
  fullSyncInterval : Nat := 6

/-- `ForceFullSync`. -/
def HeartbeatReporter.force (h : HeartbeatReporter) : HeartbeatReporter :=
  { h with forceFullSync := true, lastKnownState := {}, lastSnapshot := none }

/-- A report on its way, with the variables of `send` it was computed from. -/
structure Report where
  storeVersion : UInt64
  snapshot : ChunkStates
  known : ChunkStates
  needFullSync : Bool

namespace Report

variable (r : Report)

/-- Chunks that are known and gone; a full sync does not look for them. -/
def deleted : Finset ChunkID := if r.needFullSync then ∅ else r.known.keys \ r.snapshot.keys

/-- `ChunkStates` of the report. -/
def chunkStates : ChunkStates where
  keys := r.snapshot.keys.filter (fun id => r.known.get id ≠ some (r.snapshot.state id)) ∪ r.deleted
  state id := if id ∈ r.snapshot.keys then r.snapshot.state id else .failed

end Report

/-- The report of `send`; a snapshot that was dropped meanwhile is a nil map. -/
def HeartbeatReporter.report (h : HeartbeatReporter) (storeVersion : UInt64) : Report where
  storeVersion
  snapshot := h.lastSnapshot.getD {}
  known := h.lastKnownState
  needFullSync := h.forceFullSync || decide (h.lastKnownState.keys = ∅) ||
    decide (h.fullSyncCounter ≥ h.fullSyncInterval ∧ storeVersion ≠ h.lastFullSyncVer)

/-- The end of a `send` that succeeded. -/
def HeartbeatReporter.acknowledge (h : HeartbeatReporter) (r : Report) : HeartbeatReporter :=
  if r.needFullSync then
    { h with lastKnownState := r.snapshot, lastFullSyncVer := r.storeVersion, fullSyncCounter := 0 }
  else
    { h with
      lastKnownState :=
        { keys := (h.lastKnownState.keys ∪ r.chunkStates.keys) \ r.deleted
          state id := if id ∈ r.chunkStates.keys then r.chunkStates.state id
            else h.lastKnownState.state id }
      fullSyncCounter := h.fullSyncCounter + 1 }

/-- Where `send` is. -/
inductive Sending
  | idle
  | began (storeVersion : UInt64) (needSnapshot : Bool)
  | built (storeVersion : UInt64) (snapshot : Option ChunkStates)
  | cached (storeVersion : UInt64)
  | sent (r : Report)

/-- A datanode and the map that the metadata service has of it. -/
structure World where
  store : ChunkStates := {}
  version : UInt64 := 0
  reporter : HeartbeatReporter := {}
  sending : Sending := .idle
  metadata : ChunkID → Option ReplicaState := fun _ => none

inductive Event
  /-- The store changes, in any way. -/
  | change (store : ChunkStates)
  | forceFullSync
  /-- `send` takes its next step; at the end the heartbeat succeeds or fails. -/
  | send (succeeds : Bool)

/-- The report reaches the metadata service and is acknowledged. -/
def World.succeed (w : World) (r : Report) : World :=
  { w with
    metadata := fun id => (r.chunkStates.get id).or (w.metadata id)
    reporter := w.reporter.acknowledge r, sending := .idle }

/-- The next step of `send`. -/
def World.send (w : World) (succeeds : Bool) : World :=
  match w.sending with
  | .idle =>
    let stale := decide (w.version ≠ w.reporter.lastSnapshotVer)
    { w with sending := .began w.version (w.reporter.lastSnapshot.isNone || stale) }
  | .began v needSnapshot =>
    { w with sending := .built v (if needSnapshot then some w.store else none) }
  | .built v (some snapshot) =>
    { w with
      reporter := { w.reporter with lastSnapshot := some snapshot, lastSnapshotVer := v }
      sending := .cached v }
  | .built v none => { w with sending := .cached v }
  | .cached v =>
    { w with
      reporter := { w.reporter with forceFullSync := false }
      sending := .sent (w.reporter.report v) }
  | .sent r => if succeeds then w.succeed r else { w with sending := .idle }

def step (w : World) : Event → World
  | .change store => { w with store, version := w.version + 1 }
  | .forceFullSync => { w with reporter := w.reporter.force }
  | .send succeeds => w.send succeeds

end Nufs.Heartbeat
