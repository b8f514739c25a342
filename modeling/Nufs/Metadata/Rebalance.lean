/-
Rebalancing: plans that move replicas from one node to another.

Executing a plan queues a repair of the chunk and rewrites the replica list of its row at
once; the repair moves the data later.  A plan that fails is skipped.
-/
import Nufs.Metadata.EcLifecycle

namespace Nufs.Rebalance

open Nufs.Metadata (ChunkID)
open Nufs.Chunks (NodeID ChunkErr)
open Nufs.Ec (ChunkMeta)

/-- `MigrationPlan`, and which of its two writes the store takes. -/
structure MigrationPlan where
  chunkID : ChunkID
  sourceNode : NodeID
  targetNode : NodeID
  repairStored : Bool := true
  updateStored : Bool := true

/-- The rows of the store that the executor uses. -/
structure Registry where
  chunks : ChunkID → Option ChunkMeta
  tombstones : List ChunkID
  nodes : List (NodeID × List Char)
  repairs : List ChunkID
  keyed : ∀ id chunk, chunks id = some chunk → chunk.id = id

/-- The row that `MigrateChunkReplica` writes. -/
def migrated (chunk : ChunkMeta) (fromNode toNode : NodeID) (toAddr : List Char) : ChunkMeta :=
  let kept := chunk.replicas.filter fun r => r.nodeID != fromNode
  { chunk with replicas := kept ++ [⟨toNode, toAddr, .syncing, [], 0⟩] }

namespace Registry

theorem keyed_update (s : Registry) (chunk : ChunkMeta) (id : ChunkID) (found : ChunkMeta)
    (h : Function.update s.chunks chunk.id (some chunk) id = some found) : found.id = id := by
  by_cases hid : id = chunk.id
  · subst hid
    rw [Function.update_self] at h
    rw [← Option.some.inj h]
  · rw [Function.update_of_ne hid] at h
    exact s.keyed id found h

/-- `UpdateChunk`. -/
def updateChunk (s : Registry) (chunk : ChunkMeta) (stored : Bool) : Except ChunkErr Registry :=
  if s.chunks chunk.id = none then .error .chunkNotFound
  else if chunk.id = 0 then .error .invalidArgument
  else if chunk.id ∈ s.tombstones ∨ stored = false then .error .conflict
  else .ok { s with
    chunks := Function.update s.chunks chunk.id (some chunk), keyed := s.keyed_update chunk }

/-- `MigrateChunkReplica`. -/
def migrateChunkReplica (s : Registry) (id : ChunkID) (fromNode toNode : NodeID)
    (stored : Bool) : Except ChunkErr Registry :=
  match s.chunks id with
  | none => .error .chunkNotFound
  | some chunk =>
    let toAddr := (s.nodes.lookup toNode).getD []
    if toAddr = [] then .error .nodeNotFound
    else s.updateChunk (migrated chunk fromNode toNode toAddr) stored

/-- One plan of `ExecutePlans`. -/
def executePlan (s : Registry) (plan : MigrationPlan) : Registry :=
  if plan.chunkID = 0 ∨ plan.repairStored = false then s
  else
    let s := { s with repairs := plan.chunkID :: s.repairs }
    match s.migrateChunkReplica plan.chunkID plan.sourceNode plan.targetNode plan.updateStored with
    | .ok s => s
    | .error _ => s

/-- `ExecutePlans`. -/
def executePlans (plans : List MigrationPlan) (s : Registry) : Registry :=
  plans.foldl executePlan s

end Registry

/-! ### Taking a node out of service -/

/-- `NodeState`. -/
inductive NodeState
  | online
  | draining
  | maint
  | offline
  | failed
  | decommissioned
  deriving DecidableEq

/-- `NodeInfo`, as the planner reads it. -/
structure NodeInfo where
  id : NodeID
  addr : List Char
  capacityGB : Int
  usedGB : Int
  chunkCount : Int
  state : NodeState

/-- The rows, with the nodes and the keys of the chunks as a scan finds them. -/
structure Cluster extends Registry where
  infos : List NodeInfo
  chunkIDs : List ChunkID
  addressed : nodes = infos.map fun n => (n.id, n.addr)
  distinct : chunkIDs.Nodup
  scanned : ∀ id, id ∈ chunkIDs ↔ (chunks id).isSome

/-- The errors that `PlanDecommission` returns. -/
inductive DecommissionErr
  | nodeNotFound
  | noTargets

/-- The nodes that chunks can go to, those with more space first; those with the same space
stay in order, which `sort.Slice` leaves open. -/
def candidates (nodeID : NodeID) (nodes : List NodeInfo) : List NodeInfo :=
  KeySort.sortBy (fun n => n.usedGB - n.capacityGB)
    (nodes.filter fun n => n.id ≠ nodeID ∧ n.state = .online)

/-- `PlanDecommission`.  The plans have no chunks yet. -/
def planDecommission (nodeID : NodeID) (nodes : List NodeInfo) :
    Except DecommissionErr (List MigrationPlan) :=
  -- The last row of the node counts.
  match nodes.reverse.find? fun n => n.id = nodeID with
  | none => .error .nodeNotFound
  | some source =>
    let targets := candidates nodeID nodes
    if h : targets = [] then .error .noTargets
    else .ok ((List.range source.chunkCount.toNat).map fun i =>
      let target := targets.get ⟨i % targets.length, Nat.mod_lt i (List.length_pos_iff.mpr h)⟩
      ⟨0, nodeID, target.id, true, true⟩)

/-- The chunks handed out to the plans in turn; without a chunk the index panics. -/
def assign (chunks : List ChunkID) (plans : List MigrationPlan) : Option (List MigrationPlan) :=
  if plans = [] then some []
  else if h : chunks = [] then none
  else some (plans.mapIdx fun i plan => { plan with
    chunkID := chunks.get ⟨i % chunks.length, Nat.mod_lt i (List.length_pos_iff.mpr h)⟩ })

namespace Cluster

/-- `ChunksByNode`, of which only the IDs are read. -/
def chunksByNode (c : Cluster) (nodeID : NodeID) : List ChunkID :=
  c.chunkIDs.filter fun id =>
    (c.chunks id).any fun chunk => chunk.replicas.any fun r => r.nodeID = nodeID

/-- The plans that `ExecuteDecommission` executes. -/
def decommissionPlans (c : Cluster) (nodeID : NodeID) :
    Except DecommissionErr (Option (List MigrationPlan)) :=
  (planDecommission nodeID c.infos).map (assign (c.chunksByNode nodeID))

/-- `ExecuteDecommission`: an error, a panic, or the rows it leaves. -/
def executeDecommission (c : Cluster) (nodeID : NodeID) :
    Except DecommissionErr (Option Registry) :=
  (c.decommissionPlans nodeID).map (Option.map c.executePlans)

end Cluster

end Nufs.Rebalance
