/-
The life of a chunk's row: allocation, updates, tombstone and purge.

Every change of a chunk's row is a fenced batch.  An update compares the row it has read
and wants no tombstone; a tombstone compares the row it takes a copy of; a purge compares
chunk, tombstone and backup catalogue and deletes the first two.  The rows were read one
after the other before that.
-/
import Nufs.Metadata.BackupCatalog

namespace Nufs.Chunks

open Nufs.Metadata

variable {V : Type} (codec : ChunkCodec V) (term : UInt64)

/-! ### Updates of a chunk -/

/-- The batch of `updateLiveChunkMetadata`. -/
def updateBatch (expectedRaw : V) (chunk : ChunkMeta) : ConditionalBatch V :=
  fenced [⟨.chunk chunk.id, some expectedRaw⟩, ⟨.tombstone chunk.id, none⟩]
    [.set (.chunk chunk.id) (codec.marshalChunk chunk)]

/-- `updateLiveChunkMetadata`. -/
def updateLiveChunkMetadata (expectedRaw : V) (chunk : ChunkMeta) : Action V Unit :=
  if chunk.id = 0 then Action.fail .invalidArgument
  else Action.applyConditional term (updateBatch codec expectedRaw chunk)

/-- The row of a chunk that has to be there, and the chunk. -/
def getChunkRaw (id : ChunkID) : Action V (V × ChunkMeta) := do
  match ← Action.get (.chunk id) with
  | none => Action.fail .chunkNotFound
  | some raw =>
    match codec.chunk raw with
    | none => Action.fail .malformed
    | some chunk => return (raw, chunk)

/-- `CommitChunk`. -/
def commitChunk (id : ChunkID) (checksum : UInt32) : Action V Unit := do
  let row ← getChunkRaw codec id
  if row.2.state = .created then
    updateLiveChunkMetadata codec term row.1 { row.2 with state := .sealed, checksum := checksum }
  else Action.fail .chunkAlreadySealed

/-- `SealChunk`. -/
def sealChunk (id : ChunkID) : Action V Unit := do
  let row ← getChunkRaw codec id
  if row.2.state = .ready then return ()
  else if row.2.state = .sealed then
    updateLiveChunkMetadata codec term row.1 { row.2 with state := .ready }
  else Action.fail .chunkNotSealed

/-- `UpdateChunk`: the row is compared, not the chunk it was computed from. -/
def updateChunk (chunk : ChunkMeta) : Action V Unit := do
  match ← Action.get (.chunk chunk.id) with
  | none => Action.fail .chunkNotFound
  | some raw => updateLiveChunkMetadata codec term raw chunk

/-- `MigrateChunkReplica`, with the address the node registry has for the target. -/
def migrateChunkReplica (id : ChunkID) (fromNode toNode : NodeID) (toAddr : List Char) :
    Action V Unit := do
  let row ← getChunkRaw codec id
  if toAddr = [] then Action.fail .nodeNotFound
  else
    let kept := row.2.replicas.filter fun r => r.nodeID != fromNode
    updateChunk codec term { row.2 with replicas := kept ++ [⟨toNode, toAddr, .syncing, [], 0⟩] }

/-- The replica of a node in a new state; a node without a replica gets one. -/
def setReplicaState (nodeID : NodeID) (state : ReplicaState) : List ReplicaInfo → List ReplicaInfo
  | [] => [⟨nodeID, [], state, [], 0⟩]
  | r :: rs =>
    if r.nodeID = nodeID then { r with state := state } :: rs
    else r :: setReplicaState nodeID state rs

/-- A chunk of which a replica is in a new state; a lost replica degrades it. -/
def ChunkMeta.withReplicaState (chunk : ChunkMeta) (nodeID : NodeID) (state : ReplicaState) :
    ChunkMeta where
  id := chunk.id
  size := chunk.size
  state :=
    if state = .failed ∧ (chunk.state = .sealed ∨ chunk.state = .ready) then .degraded
    else chunk.state
  replicas := setReplicaState nodeID state chunk.replicas
  checksum := chunk.checksum

/-- `MarkExtentDegraded`. -/
def markExtentDegraded (id : ChunkID) : Action V Unit := do
  match ← Action.get (.extentMeta id) with
  | none => return ()
  | some raw =>
    match codec.degradeExtent raw with
    | none => Action.fail .malformed
    | some none => return ()
    | some (some degraded) => Action.propose ⟨term, some (.set (.extentMeta id) degraded)⟩

/-- One chunk of `batchUpdateChunkStatesCtx`, with the row read before. -/
def updateChunkState (rows : Rows V) (nodeID : NodeID) (id : ChunkID) (state : ReplicaState) :
    Action V Unit :=
  match (rows.lookup (.chunk id)).bind fun raw => (codec.chunk raw).map fun c => (raw, c) with
  | none => return ()
  | some row => do
      let chunk := row.2.withReplicaState nodeID state
      match ← (updateLiveChunkMetadata codec term row.1 chunk).attempt with
      | .error .conflict => return ()
      | .error e => Action.fail e
      | .ok _ =>
        if chunk.state = .degraded then markExtentDegraded codec term id else return ()

/-- The chunks of `batchUpdateChunkStatesCtx`, one after the other. -/
def updateChunkStates (rows : Rows V) (nodeID : NodeID) :
    List (ChunkID × ReplicaState) → Action V Unit
  | [] => return ()
  | s :: states => do
      updateChunkState codec term rows nodeID s.1 s.2
      updateChunkStates rows nodeID states

/-- `ReportChunkState`: the rows of all chunks are fetched in one pass. -/
def reportChunkState (nodeID : NodeID) (states : List (ChunkID × ReplicaState)) : Action V Unit :=
  if states = [] then return ()
  else do
    let rows ← Action.scan
    updateChunkStates codec term rows nodeID states

/-! ### Allocation -/

/-- `allocationConditionalAttempts`. -/
def allocationConditionalAttempts : Nat := 8

/-- A chunk to be allocated: its number, its place in the file, and where its replicas go. -/
structure Allotted where
  id : ChunkID
  offset : Int
  replicas : List ReplicaInfo
  deriving DecidableEq, Repr

/-- The chunk that is allocated. -/
def Allotted.chunk (a : Allotted) : ChunkMeta :=
  ⟨a.id, maxChunkSize, .created, a.replicas, 0⟩

/-- The rows of `buildChunkAllocationConditional`. -/
def allocationOps (id : InodeID) (inodeRaw : V) (allotted : List Allotted) : List (BatchOp V) :=
  (allotted.map fun a => .set (.chunk a.id) (codec.marshalChunk a.chunk)) ++
    [.set (.inode id) (codec.addChunks inodeRaw (allotted.map fun a => ⟨a.id, a.offset, 0⟩))]

/-- `buildChunkAllocationConditional`. -/
def allocationBatch (id : InodeID) (inodeRaw : V) (allotted : List Allotted) : ConditionalBatch V :=
  fenced (⟨.inode id, some inodeRaw⟩ ::
      allotted.flatMap fun a => [⟨.chunk a.id, none⟩, ⟨.tombstone a.id, none⟩])
    (allocationOps codec id inodeRaw allotted)

/-- The numbers of new chunks: none is zero, and none comes twice. -/
def checkChunkIDs (seen : List ChunkID) : List ChunkID → Except ChunkErr Unit
  | [] => .ok ()
  | id :: ids =>
    if id = 0 then .error .invalidArgument
    else if id ∈ seen then .error .conflict
    else checkChunkIDs (id :: seen) ids

/-- What an attempt is given: numbers from the generator, and nodes from the placement. -/
abbrev Placement := List (ChunkID × List ReplicaInfo)

/-- `buildAllocatedChunks`. -/
def buildAllocatedChunks (offsets : List Int) (placement : Placement) :
    Except ChunkErr (List Allotted) := do
  checkChunkIDs [] (placement.map Prod.fst)
  return (placement.zip offsets).map fun p => ⟨p.1.1, p.2, p.1.2⟩

/-- `allocateChunksConditionally`, with what each of its attempts is given. -/
def allocateChunksConditionally (id : InodeID) (offsets : List Int) :
    List Placement → Action V Unit
  | [] => Action.fail .conflict
  | placement :: attempts => do
      match ← Action.get (.inode id) with
      | none => Action.fail .inodeNotFound
      | some inodeRaw =>
        match codec.inode inodeRaw with
        | none => Action.fail .malformed
        | some inode =>
          if inode.1 ≠ id then Action.fail .identity
          else
            match buildAllocatedChunks offsets placement with
            | .error .conflict => allocateChunksConditionally id offsets attempts
            | .error e => Action.fail e
            | .ok allotted =>
              -- prepared over the rows of the leader, and fenced only after that
              let rows ← Action.scan
              match Fsm.prepareReferenceAwareBatch codec.toCodec rows
                  (allocationOps codec id inodeRaw allotted) with
              | .error e => Action.fail (.fsm e)
              | .ok _ =>
                match ← (Action.applyConditional term
                    (allocationBatch codec id inodeRaw allotted)).attempt with
                | .error .conflict => allocateChunksConditionally id offsets attempts
                | r => Action.lift r

/-- `AllocateChunksBatch`. -/
def allocateChunksBatch (id : InodeID) (offsets : List Int) (attempts : List Placement) :
    Action V Unit :=
  if offsets = [] then return ()
  else if maxChunkAllocationBatch < offsets.length then Action.fail .invalidArgument
  else
    allocateChunksConditionally codec term id offsets
      (attempts.take allocationConditionalAttempts)

/-! ### Tombstones -/

/-- `chunkTombstoneQuarantine`. -/
def chunkTombstoneQuarantine : Time := 25 * hour

/-- `chunkCatalogMaxAge`. -/
def chunkCatalogMaxAge : Time := 2 * hour

/-- `unicode.IsSpace`. -/
def isSpace (c : Char) : Bool :=
  let n := c.toNat
  decide (n = 32 ∨ (9 ≤ n ∧ n ≤ 13) ∨ n = 0x85 ∨ n = 0xA0 ∨ n = 0x1680 ∨
    (0x2000 ≤ n ∧ n ≤ 0x200A) ∨ n = 0x2028 ∨ n = 0x2029 ∨ n = 0x202F ∨ n = 0x205F ∨ n = 0x3000)

/-- `normalizeChunkTombstone`. -/
def normalizeChunkTombstone (t : ChunkTombstone) : Except ChunkErr ChunkTombstone :=
  if t.chunkID = 0 ∨ t.size < 0 ∨ t.reason.all isSpace ∨ t.deletedAt = 0 ∨ t.deleteAfter = 0 ∨
      t.deleteAfter ≠ t.deletedAt + chunkTombstoneQuarantine then .error .invalidTombstone
  else .ok t

/-- `validateDurableChunkTombstonePair`. -/
def validateDurableChunkTombstonePair [DecidableEq V] (id : ChunkID)
    (chunkRaw tombstoneRaw : Option V) : Except ChunkErr ChunkTombstone := do
  match chunkRaw, tombstoneRaw with
  | some chunkRaw, some tombstoneRaw =>
    match codec.chunk chunkRaw with
    | none => .error .malformed
    | some chunk =>
      if chunk.id ≠ id ∨ chunk.size < 0 then .error .identity
      else
        match codec.tombstone tombstoneRaw with
        | none => .error .malformed
        | some decoded =>
          let tombstone ← normalizeChunkTombstone decoded
          if codec.marshalTombstone tombstone ≠ tombstoneRaw then .error .invalidTombstone
          else if tombstone.chunkID ≠ id ∨ tombstone.size ≠ chunk.size ∨
              tombstone.replicas ≠ chunk.replicas then .error .invalidPair
          else .ok tombstone
  | _, _ => .error .invalidPair

/-- `inodeReferenceSnapshot`. -/
structure InodeReferenceSnapshot (V : Type) where
  epoch : Option V
  references : Finset ChunkID

/-- The chunks that the row under a key refers to; nothing, if it does not decode. -/
def rowReferences (rows : Rows V) : Key → Option (List ChunkID)
  | .inode id =>
    match rows.lookup (.inode id) with
    | none => some []
    | some raw => codec.references rows id raw
  | _ => some []

/-- The chunks that all inodes refer to. -/
def collectReferences (rows : Rows V) : Except ChunkErr (Finset ChunkID) :=
  if ∀ k ∈ rows.keys, (rowReferences codec rows k).isSome then
    .ok (rows.keys.biUnion fun k => ((rowReferences codec rows k).getD []).toFinset)
  else .error .malformed

/-- `readInodeReferenceEpochRaw`. -/
def readInodeReferenceEpochRaw : Action V (Option V) := do
  match ← Action.get .epoch with
  | none => return none
  | some raw => if codec.isEpoch raw then return some raw else Action.fail .malformed

/-- `stableInodeReferenceSnapshot`, with the attempts it has left. -/
def stableInodeReferenceSnapshot [DecidableEq V] : Nat → Action V (InodeReferenceSnapshot V)
  | 0 => Action.fail .conflict
  | attempts + 1 => do
      let epochBefore ← readInodeReferenceEpochRaw codec
      let rows ← Action.scan
      let references ← Action.lift (collectReferences codec rows)
      let epochAfter ← readInodeReferenceEpochRaw codec
      if epochBefore = epochAfter then return ⟨epochAfter, references⟩
      else stableInodeReferenceSnapshot attempts

/-- The tombstone of a chunk. -/
def ChunkMeta.tombstone (chunk : ChunkMeta) (reason : List Char) (now : Time) : ChunkTombstone :=
  ⟨chunk.id, chunk.replicas, chunk.size, reason, now, now + chunkTombstoneQuarantine⟩

/-- The batch of `tombstoneChunkWithReferences`. -/
def tombstoneBatch (references : InodeReferenceSnapshot V) (id : ChunkID) (chunkRaw : V)
    (tombstone : ChunkTombstone) : ConditionalBatch V :=
  fenced [⟨.epoch, references.epoch⟩, ⟨.chunk id, some chunkRaw⟩, ⟨.tombstone id, none⟩]
    [.set (.tombstone id) (codec.marshalTombstone tombstone)]

/-- The end of `tombstoneChunkWithReferences` after a conflict: another tombstone is fine. -/
def reconcileTombstone [DecidableEq V] (id : ChunkID) : Action V Bool := do
  match ← Action.get (.tombstone id) with
  | none => Action.fail .conflict
  | some latest =>
    let latestChunk ← Action.get (.chunk id)
    let _ ← Action.lift (validateDurableChunkTombstonePair codec id latestChunk (some latest))
    return false

/-- `tombstoneChunkWithReferences`: whether a tombstone was created. -/
def tombstoneChunkWithReferences [DecidableEq V] (id : ChunkID) (reason : List Char) (now : Time)
    (references : InodeReferenceSnapshot V) : Action V Bool :=
  if reason.all isSpace then Action.fail .reasonRequired
  else do
    let chunkRaw ← Action.get (.chunk id)
    let tombstoneRaw ← Action.get (.tombstone id)
    if tombstoneRaw.isSome then
      let _ ← Action.lift (validateDurableChunkTombstonePair codec id chunkRaw tombstoneRaw)
      if id ∈ references.references then Action.fail .referenced else return false
    else if id ∈ references.references then return false
    else
      match chunkRaw with
      | none => return false
      | some raw =>
        match codec.chunk raw with
        | none => Action.fail .malformed
        | some chunk =>
          if chunk.id ≠ id then Action.fail .identity
          else if chunk.size < 0 then Action.fail .negativeSize
          else
            match ← (Action.applyConditional term (tombstoneBatch codec references id raw
                (chunk.tombstone reason now))).attempt with
            | .error .conflict => reconcileTombstone codec id
            | .error e => Action.fail e
            | .ok _ => return true

/-- A tombstone of the garbage collector, which has one snapshot for many chunks. -/
def collectOrphan [DecidableEq V] (id : ChunkID) (reason : List Char) (now : Time)
    (references : InodeReferenceSnapshot V) : Action V Unit := do
  let _ ← tombstoneChunkWithReferences codec term id reason now references
  return ()

/-- `TombstoneChunk`. -/
def tombstoneChunk [DecidableEq V] (id : ChunkID) (reason : List Char) (now : Time) :
    Action V Unit := do
  let references ← stableInodeReferenceSnapshot codec 3
  collectOrphan codec term id reason now references

/-! ### Purge -/

/-- `canPurgeWithCatalog`. -/
def canPurgeWithCatalog (t : ChunkTombstone) (now : Time) :
    Option BackupCatalogState → Except ChunkErr Bool
  | none => .error .catalogUnavailable
  | some catalog =>
    if catalog.backups = [] then .error .catalogUnavailable
    else if catalog.reconciledAt = 0 then .error .timeRequired
    else if now < catalog.reconciledAt ∨ chunkCatalogMaxAge < now - catalog.reconciledAt then
      .error .catalogNotFresh
    else .ok (catalog.backups.all fun b => decide (t.deletedAt < b.createdAt))

/-- The catalogue of a row that is stored as `ReplaceCommittedBackupCatalog` stores it. -/
def canonicalCatalog [DecidableEq V] (raw : V) : Except ChunkErr Unit := do
  match codec.catalog raw with
  | none => .error .malformed
  | some durable =>
    let normalized ← normalizeBackupCatalog durable.backups durable.reconciledAt
    if codec.marshalCatalog normalized ≠ raw then .error .catalogInvalid else .ok ()

/-- The loop of `capturePurgeCatalog`, with the attempts it has left. -/
def captureAttempts [DecidableEq V] (t : ChunkTombstone) (now : Time) : Nat → Action V V
  | 0 => Action.fail .conflict
  | attempts + 1 => do
      match ← Action.get keyBackupCatalog with
      | none => Action.fail .catalogUnavailable
      | some raw =>
        Action.lift (canonicalCatalog codec raw)
        -- the catalogue is read once more, and it is this one that is judged
        let catalog ← getBackupCatalogState codec
        let eligible ← Action.lift (canPurgeWithCatalog t now catalog)
        if ¬ eligible then Action.fail .purgeIneligible
        else
          let latest ← Action.get keyBackupCatalog
          if latest = some raw then return raw
          else captureAttempts t now attempts

/-- `capturePurgeCatalog`. -/
def capturePurgeCatalog [DecidableEq V] (t : ChunkTombstone) (now : Time) : Action V V := do
  let _ ← Action.lift (normalizeChunkTombstone t)
  if now = 0 then Action.fail .timeRequired
  else if now < t.deleteAfter then Action.fail .purgeIneligible
  else captureAttempts codec t now 3

/-- The batch of `purgeChunkIfEligible`. -/
def purgeBatch (references : InodeReferenceSnapshot V) (id : ChunkID)
    (catalogRaw chunkRaw tombstoneRaw : V) : ConditionalBatch V :=
  fenced [⟨.epoch, references.epoch⟩, ⟨keyBackupCatalog, some catalogRaw⟩,
      ⟨.chunk id, some chunkRaw⟩, ⟨.tombstone id, some tombstoneRaw⟩]
    [.delete (.chunk id), .delete (.tombstone id)]

/-- The end of `purgeChunkIfEligible` after a conflict. -/
def reconcilePurge [DecidableEq V] (id : ChunkID) : Action V Unit := do
  let latestChunk ← Action.get (.chunk id)
  let latestTombstone ← Action.get (.tombstone id)
  if latestChunk = none ∧ latestTombstone = none then return ()
  else
    let _ ← Action.lift (validateDurableChunkTombstonePair codec id latestChunk latestTombstone)
    Action.fail .conflict

/-- `purgeChunkIfEligible`. -/
def purgeChunkIfEligible [DecidableEq V] (id : ChunkID) (now : Time)
    (references : InodeReferenceSnapshot V) : Action V Unit :=
  if id ∈ references.references then Action.fail .referenced
  else do
    let chunkRaw ← Action.get (.chunk id)
    let tombstoneRaw ← Action.get (.tombstone id)
    match chunkRaw, tombstoneRaw with
    | none, none => return ()
    | some chunkRaw, some tombstoneRaw =>
      let tombstone ← Action.lift
        (validateDurableChunkTombstonePair codec id (some chunkRaw) (some tombstoneRaw))
      let catalogRaw ← capturePurgeCatalog codec tombstone now
      match ← (Action.applyConditional term
          (purgeBatch references id catalogRaw chunkRaw tombstoneRaw)).attempt with
      | .error .conflict => reconcilePurge codec id
      | r => Action.lift r
    | _, _ => Action.fail .invalidPair

/-- `PurgeChunk`. -/
def purgeChunk [DecidableEq V] (id : ChunkID) (now : Time) : Action V Unit := do
  let references ← stableInodeReferenceSnapshot codec 3
  purgeChunkIfEligible codec term id now references

/-! ### Everything that can be called -/

/-- `keyClusterID`, `keyRestorePending`. -/
def protectedNames : List (List Char) :=
  [['s', 'y', 's', 't', 'e', 'm', '/', 'c', 'l', 'u', 's', 't', 'e', 'r', '-', 'i', 'd'],
   ['s', 'y', 's', 't', 'e', 'm', '/', 'r', 'e', 's', 't', 'o', 'r', 'e', '-', 'p', 'e', 'n', 'd',
    'i', 'n', 'g']]

/-- `prefixBackupTask`. -/
def backupTaskNames : List Char := ['b', 'a', 'c', 'k', 'u', 'p', '/', 't', 'a', 's', 'k', '/']

/-- `isPublicRaftProtectedKey`. -/
def isPublicRaftProtectedKey : Key → Bool
  | .chunk _ | .tombstone _ | .epoch | .backupCatalog _ => true
  | .other name =>
    decide (Key.other name = keyBackupCatalog) || protectedNames.contains name ||
      backupTaskNames.isPrefixOf name
  | _ => false

/-- The keys that `rejectPublicRaftApply` looks at; a conditional batch is not taken at all. -/
def publicKeys : RaftLogEntry V → Option (List Key)
  | .set key _ | .delete key | .cas key _ _ => some [key]
  | .batch ops => some (ops.map BatchOp.key)
  | .conditional _ => none

/-- `RaftNode.Apply`: entries of the rest of the service, inodes among them. -/
def applyEntry (entry : RaftLogEntry V) : Action V Unit :=
  match publicKeys entry with
  | none => Action.fail .protectedKey
  | some keys =>
    if keys.any isPublicRaftProtectedKey then Action.fail .protectedKey
    else Action.propose ⟨term, some entry⟩

/-- The calls; clock, placement and registry are given with them. -/
inductive Operation (V : Type)
  | commitChunk (id : ChunkID) (checksum : UInt32)
  | sealChunk (id : ChunkID)
  | updateChunk (chunk : ChunkMeta)
  | migrateChunkReplica (id : ChunkID) (fromNode toNode : NodeID) (toAddr : List Char)
  | reportChunkState (nodeID : NodeID) (states : List (ChunkID × ReplicaState))
  | allocateChunksBatch (id : InodeID) (offsets : List Int) (attempts : List Placement)
  | tombstoneChunk (id : ChunkID) (reason : List Char) (now : Time)
  | collectOrphan (id : ChunkID) (reason : List Char) (now : Time)
      (references : InodeReferenceSnapshot V)
  | purgeChunk (id : ChunkID) (now : Time)
  /-- A purge of the garbage collector. -/
  | purgeChunkIfEligible (id : ChunkID) (now : Time) (references : InodeReferenceSnapshot V)
  | replaceCommittedBackupCatalog (backups : List CommittedBackup) (reconciledAt : Time)
      (expectedRaftTerm : UInt64)
  | apply (entry : RaftLogEntry V)

/-- A call, and the term its entries are committed in. -/
structure Call (V : Type) where
  term : UInt64
  op : Operation V

/-- What a call does. -/
def Call.action [DecidableEq V] (call : Call V) : Action V Unit :=
  match call.op with
  | .commitChunk id checksum => commitChunk codec call.term id checksum
  | .sealChunk id => sealChunk codec call.term id
  | .updateChunk chunk => updateChunk codec call.term chunk
  | .migrateChunkReplica id fromNode toNode toAddr =>
    migrateChunkReplica codec call.term id fromNode toNode toAddr
  | .reportChunkState nodeID states => reportChunkState codec call.term nodeID states
  | .allocateChunksBatch id offsets attempts =>
    allocateChunksBatch codec call.term id offsets attempts
  | .tombstoneChunk id reason now => tombstoneChunk codec call.term id reason now
  | .collectOrphan id reason now references =>
    collectOrphan codec call.term id reason now references
  | .purgeChunk id now => purgeChunk codec call.term id now
  | .purgeChunkIfEligible id now references =>
    purgeChunkIfEligible codec call.term id now references
  | .replaceCommittedBackupCatalog backups reconciledAt expectedRaftTerm =>
    replaceCommittedBackupCatalog codec call.term backups reconciledAt expectedRaftTerm
  | .apply entry => applyEntry call.term entry

/-- The rows, and the calls that are under way. -/
abbrev Service (V : Type) :=
  Interleave.Pool (Request V) Request.Answer (Except ChunkErr Unit) (Rows V) (Call V)

/-- A call comes in, or the next request of one is answered. -/
def Service.next [DecidableEq V] (s : Service V) (e : Interleave.Event (Call V)) :
    Option (Service V) :=
  Interleave.Pool.step (answer codec) (fun call => call.action codec) s e

end Nufs.Chunks
