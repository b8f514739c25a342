/-
The erasure-coding registry of the metadata service.

A stripe says on which disks the nine shards of a chunk are and how far its conversion
is.  Stripes are rows of their own, listed in the order of their names; the row of a chunk
names the stripe it is served from.  The planner hands the nine shards out to the nodes
in turn.  A chunk that is written as shards from the start has no stripe before its write
is recorded.
-/
import Mathlib.Data.Char
import Nufs.Lib.KeySort
import Nufs.Metadata.ChunkRows

namespace Nufs.Ec

open Nufs.Metadata Nufs.Chunks

/-- `ECDataShards` and `ECParityShards` together. -/
def totalShards : Nat := 6 + 3

/-- `ECMinMachines`. -/
def minMachines : Nat := 3

/-- `ECMaxShardsPerMachine`. -/
def maxShardsPerMachine : Nat := 3

/-- `ECConversionState`. -/
inductive ConversionState
  | preparing
  | encoding
  | syncing
  | switching
  | complete
  | rolledBack
  deriving DecidableEq, Repr

/-- `ECShard`. -/
structure ECShard where
  index : Int
  nodeID : NodeID
  diskID : UInt64
  segmentID : UInt64 := 0
  offset : Int := 0
  checksum : UInt32 := 0
  deriving DecidableEq, Repr

/-- `ECStripe`. -/
structure ECStripe where
  stripeID : List Char
  extentID : ChunkID
  generation : UInt64
  originalChecksum : UInt32
  shards : List ECShard := []
  state : ConversionState
  convertedAt : Time := 0
  rolledBackAt : Time := 0
  deriving DecidableEq, Repr

/-- `ECDisk`. -/
structure ECDisk where
  diskID : UInt64
  nodeID : NodeID
  deriving DecidableEq, Repr

/-- `ECConfig`. -/
structure ECConfig where
  dataShards : Nat
  parityShards : Nat
  deriving DecidableEq, Repr

/-- `ECGroupInfo`. -/
structure ECGroupInfo where
  groupID : List Char
  profileID : List Char
  config : ECConfig
  deriving DecidableEq, Repr

/-- `ChunkMeta`, with what ties a chunk to its stripe. -/
structure ChunkMeta where
  id : ChunkID
  size : Int
  state : Chunks.ChunkState
  replicas : List ReplicaInfo
  ecGroup : Option ECGroupInfo
  checksum : UInt32
  generation : UInt64
  ecStripeID : List Char
  deriving DecidableEq, Repr

/-- The errors of the registry. -/
inductive EcErr
  | invalidArgument
  | chunkNotFound
  | conflict
  /-- The stripe is not there. -/
  | stripeNotFound (stripeID : List Char)
  /-- `ec: record-direct: chunk has no EC group (not allocated for EC)`. -/
  | noGroup (chunk : ChunkID)
  /-- `ec: record-direct: chunk plan has more shards than allocated replicas`. -/
  | planTooLong (shards replicas : Nat)
  /-- `ec: record-direct: shard planned on another node than its replica`. -/
  | planMismatch (shard : Nat)
  /-- `ec: record-direct: stripe already in another state than complete`. -/
  | notComplete (found : ConversionState)
  /-- `ec: plan shards requires state preparing`. -/
  | notPreparing (found : ConversionState)
  /-- `ec: plan shards needs >=3 distinct nodes`. -/
  | tooFewNodes (found : Nat)
  /-- `ec: plan shards needs >=9 disks`. -/
  | tooFewDisks (found : Nat)
  /-- `ec: plan shards could not place 9 shards (disk/cap exhaustion)`. -/
  | notPlaced
  /-- `ec: need >=3 distinct machines`. -/
  | tooFewMachines (found : Nat)
  /-- `ec: machine holds more than 3 shards`. -/
  | machineFull (node : NodeID) (shards : Nat)
  deriving DecidableEq, Repr

/-! ### Rows -/

/-- The rows `ec-stripe/…`, one for each name. -/
structure Stripes where
  rows : List ECStripe
  nodup : (rows.map ECStripe.stripeID).Nodup

namespace Stripes

/-- `GetStripe`. -/
def get (stripes : Stripes) (stripeID : List Char) : Option ECStripe :=
  stripes.rows.find? fun st => st.stripeID = stripeID

/-- `PutStripe`. -/
def put (stripes : Stripes) (st : ECStripe) : Stripes where
  rows := st :: stripes.rows.filter fun old => old.stripeID ≠ st.stripeID
  nodup := by
    rw [List.map_cons, List.nodup_cons]
    refine ⟨fun h => ?_, stripes.nodup.sublist (List.filter_sublist.map _)⟩
    obtain ⟨old, hold, heq⟩ := List.mem_map.mp h
    simp [heq] at hold

/-- `ListStripes`: the rows in the order of their names. -/
def list (stripes : Stripes) : List ECStripe := KeySort.sortBy ECStripe.stripeID stripes.rows

end Stripes

/-- The rows of the registry: stripes, chunks and the chunks that are tombstoned. -/
structure Registry where
  stripes : Stripes
  chunks : ChunkID → Option ChunkMeta
  tombstoned : ChunkID → Bool

namespace Registry

/-- `PutStripe`. -/
def putStripe (reg : Registry) (st : ECStripe) : Registry :=
  { reg with stripes := reg.stripes.put st }

/-- `updateLiveChunkMetadata`: the chunk replaces the row that was read, if that row is
still there and there is no tombstone. -/
def updateLiveChunk (reg : Registry) (expected chunk : ChunkMeta) : Except EcErr Registry :=
  if chunk.id = 0 then .error .invalidArgument
  else if reg.chunks chunk.id = some expected ∧ reg.tombstoned chunk.id = false then
    .ok { reg with chunks := Function.update reg.chunks chunk.id (some chunk) }
  else .error .conflict

end Registry

/-! ### The planner -/

/-- The queue of a node: its disks in order, and how many of them are taken. -/
structure NodeQueue where
  nodeID : NodeID
  disks : List ECDisk
  used : Nat := 0
  nextDisk : Nat := 0
  deriving DecidableEq, Repr

/-- The queues of the nodes, in the order of the nodes. -/
def nodeQueues (disks : List ECDisk) : List NodeQueue :=
  let nodeOrder := KeySort.sortBy UInt64.toNat (disks.map ECDisk.nodeID).dedup
  nodeOrder.map fun n =>
    { nodeID := n
      disks := KeySort.sortBy (fun d => d.diskID.toNat) (disks.filter fun d => d.nodeID = n) }

/--
The loop of `PlanShards`, for a number of turns: nothing, if that is not enough.  A turn
at a node that is full or out of disks places nothing and takes the counter of placed
shards back.
-/
def placeShards : Nat → List NodeQueue → Nat → Nat → List ECShard → Option (List ECShard)
  | 0, _, _, _, _ => none
  | turns + 1, queues, i, placed, plan =>
    if placed < totalShards then
      match queues[i % queues.length]? with
      | none => none
      | some q =>
        if maxShardsPerMachine ≤ q.used then placeShards turns queues (i + 1) placed plan
        else
          match q.disks[q.nextDisk]? with
          | none => placeShards turns queues (i + 1) placed plan
          | some d =>
            let q' := { q with used := q.used + 1, nextDisk := q.nextDisk + 1 }
            placeShards turns (queues.set (i % queues.length) q') (i + 1) (placed + 1)
              (plan ++ [{ index := placed, nodeID := d.nodeID, diskID := d.diskID }])
    else some plan

/-- `ECPlacementValidator.Validate`, with the bounds of a stripe. -/
def validate (shards : List ECShard) : Except EcErr Nat :=
  let nodes := shards.map ECShard.nodeID
  if nodes.dedup.length < minMachines then .error (.tooFewMachines nodes.dedup.length)
  else
    match nodes.dedup.find? fun n => maxShardsPerMachine < nodes.count n with
    | some n => .error (.machineFull n (nodes.count n))
    | none => .ok nodes.dedup.length

/-- `PlanShards`, up to the write of the stripe, for a number of turns of its loop. -/
def planShards (turns : Nat) (st : ECStripe) (disks : List ECDisk) :
    Option (Except EcErr ECStripe) :=
  let nodes := (disks.map ECDisk.nodeID).dedup.length
  if st.state ≠ .preparing then some (.error (.notPreparing st.state))
  else if nodes < minMachines then some (.error (.tooFewNodes nodes))
  else if disks.length < totalShards then some (.error (.tooFewDisks disks.length))
  else
    (placeShards turns (nodeQueues disks) 0 0 []).map fun plan =>
      if plan.length ≠ totalShards then .error .notPlaced
      else (validate plan).map fun _ => { st with shards := plan, state := .encoding }

/-! ### Chunks that are written as shards -/

/-- A number in decimal digits. -/
def decimal (n : UInt64) : List Char := Nat.toDigits 10 n.toNat

/-- The group of an allocation: one for all of its chunks, named after the first. -/
def groupID (first : ChunkID) (rest : List ChunkID) : List Char :=
  if rest = [] then "ec-".toList ++ decimal first else "ec-batch-".toList ++ decimal first

/-- `ECGroupFromProfile`, with the profile of a configuration. -/
def groupOf (config : ECConfig) (id : List Char) : ECGroupInfo :=
  { groupID := id
    profileID := "ec-".toList ++ Nat.toDigits 10 config.dataShards ++ '-' ::
      Nat.toDigits 10 config.parityShards
    config }

/-- `buildAllocatedChunks`, on the minted numbers and for an erasure-coded policy; where the
replicas of each chunk go is the placement's choice. -/
def buildAllocatedChunks (config : ECConfig) (first : ChunkID) (rest : List ChunkID)
    (place : ChunkID → List (NodeID × List Char)) : List ChunkMeta :=
  (first :: rest).map fun id =>
    { id
      size := maxChunkSize
      state := .created
      replicas := (place id).mapIdx fun shard node =>
        { nodeID := node.1, addr := node.2, state := .syncing, diskPath := [], shardIndex := shard }
      ecGroup := some (groupOf config (groupID first rest))
      checksum := 0
      generation := 1
      ecStripeID := [] }

/-- Where the plan of a write first differs from the replicas that were allocated. -/
def checkPlan (shards : List ECShard) (replicas : List ReplicaInfo) : Option EcErr :=
  (List.range shards.length).findSome? fun i =>
    match shards[i]?, replicas[i]? with
    | some sh, some rep => if sh.nodeID ≠ rep.nodeID then some (.planMismatch i) else none
    | _, _ => some (.planTooLong shards.length replicas.length)

namespace Registry

variable (reg : Registry)

/-- The conditional batch of an allocation: the chunks are new and have no tombstones. -/
def allocate (chunks : List ChunkMeta) : Except EcErr Registry :=
  if (∀ chunk ∈ chunks, chunk.id ≠ 0 ∧ reg.chunks chunk.id = none ∧
      reg.tombstoned chunk.id = false) ∧ (chunks.map ChunkMeta.id).Nodup then
    .ok { reg with chunks := fun id => (chunks.find? fun c => c.id = id).or (reg.chunks id) }
  else .error .conflict

/-- The checks of `RecordDirect`, and the chunk and the stripe it goes on with. -/
def directStripe (id : ChunkID) (shards : List ECShard) (checksum : UInt32) (now : Time) :
    Except EcErr (ChunkMeta × ECStripe) :=
  match reg.chunks id with
  | none => .error .chunkNotFound
  | some chunk =>
    match chunk.ecGroup with
    | none => .error (.noGroup id)
    | some group =>
      if group.groupID = [] then .error (.noGroup id)
      else
        match checkPlan shards chunk.replicas with
        | some e => .error e
        | none =>
          let st : ECStripe :=
            { stripeID := group.groupID, extentID := id, generation := chunk.generation
              originalChecksum := checksum, shards, state := .complete, convertedAt := now }
          match reg.stripes.get group.groupID with
          | none => .ok (chunk, st)
          | some old =>
            if old.state = .complete then .ok (chunk, st)
            else .error (.notComplete old.state)

/-- `RecordDirect`: the stripe is written, then the row of the chunk is pointed at it. -/
def recordDirect (id : ChunkID) (shards : List ECShard) (checksum : UInt32) (now : Time) :
    Except EcErr Registry × Registry :=
  match reg.directStripe id shards checksum now with
  | .error e => (.error e, reg)
  | .ok (chunk, st) =>
    let reg' := reg.putStripe st
    let layout := { chunk with state := .ready, checksum, ecStripeID := st.stripeID }
    (reg'.updateLiveChunk chunk layout, reg')

/-- `ResolveStripeLanding`; nothing, for a chunk that names no stripe. -/
def resolveStripeLanding (chunk : ChunkMeta) : Except EcErr (Option (List ECShard)) :=
  let stripeID :=
    if chunk.ecStripeID ≠ [] then chunk.ecStripeID
    else (chunk.ecGroup.map ECGroupInfo.groupID).getD []
  if stripeID = [] then .ok none
  else
    match reg.stripes.get stripeID with
    | none => .error (.stripeNotFound stripeID)
    | some st => .ok (some st.shards)

end Registry

/-! ### Orphans -/

/-- A stripe that was rolled back before the cutoff. -/
def ECStripe.Reclaimable (st : ECStripe) (cutoff : Time) : Prop :=
  st.state = .rolledBack ∧ st.rolledBackAt ≠ 0 ∧ st.rolledBackAt ≤ cutoff

instance (st : ECStripe) (cutoff : Time) : Decidable (st.Reclaimable cutoff) :=
  inferInstanceAs (Decidable (_ ∧ _ ∧ _))

/-- The stripe the verdict on a chunk is taken from: the first row with the chunk's number. -/
def Stripes.governing (stripes : Stripes) (id : ChunkID) : Option ECStripe :=
  stripes.list.find? fun st => st.extentID = id

/-- The stripe that the row of a chunk names is complete. -/
def Stripes.ownComplete (stripes : Stripes) (chunk : Option ChunkMeta) : Bool :=
  match chunk with
  | none => false
  | some chunk =>
    decide (chunk.ecStripeID ≠ []) &&
      ((stripes.get chunk.ecStripeID).map ECStripe.state == some .complete)

/-- The verdict, from the governing stripe and the stripe the chunk names. -/
def verdict (governing : Option ECStripe) (own : Bool) (cutoff : Time) : Bool :=
  if own then false
  else
    match governing with
    | none => true
    | some st => decide (st.Reclaimable cutoff)

/-- `IsChunkShardsOrphaned`. -/
def Registry.isChunkShardsOrphaned (reg : Registry) (id : ChunkID) (olderThan now : Time) : Bool :=
  if olderThan ≤ 0 then false
  else verdict (reg.stripes.governing id) (reg.stripes.ownComplete (reg.chunks id))
    (now - olderThan)

end Nufs.Ec
