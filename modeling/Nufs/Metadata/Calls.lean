/-
The operations of the metadata service as calls, and a replica that follows the log.
`CreateNode`, `CASUpdateInode`, `MarkExtentDegraded`, `ReportChunkState` and
`MigrateChunkReplica` are not among the calls.
-/
import Nufs.Metadata.Extents

namespace Nufs.Metadata

/-- A call of an operation, with what the clock and the number generators give it. -/
inductive Call
  | createFile (parent : InodeID) (name : List Char) (now : Int) (mint retry : Mint)
  | symlink (parent : InodeID) (name target : List Char) (now : Int) (mint retry : Mint)
  | mkDir (parent : InodeID) (name : List Char) (now : Int) (mint retry : Mint)
  | unlink (parent : InodeID) (name : List Char) (full : Bool)
  | rmDir (parent : InodeID) (name : List Char) (full : Bool)
  | link (parent : InodeID) (name : List Char) (target : InodeID) (now : Int)
  | rename (oldParent : InodeID) (oldName : List Char) (newParent : InodeID) (newName : List Char)
      (full : Bool)
  | updateInode (now : Int) (m : InodeMeta)
  | allocateChunks (id : InodeID) (offsets : List Int) (replicas : Nat)
      (attempts : List (List ChunkID))
  | commitChunk (id : ChunkID)
  | updateChunk (chunk : ChunkMeta)
  | sealChunk (id : ChunkID)
  | deleteChunk (id : ChunkID)
  | purgeChunk (id : ChunkID) (catalog : Value)
  | createEmpty (id : InodeID) (type : FileType) (bucketRoot : InodeID) (now : Int)
  | setInlineExtent (now : Int) (id : InodeID) (ext : ExtentMeta) (size : Int)
  | promoteToPages (now : Int) (id : InodeID)
  | appendExtent (now : Int) (id : InodeID) (ext : ExtentMeta) (offset : Int)
  | replaceExtents (now : Int) (id : InodeID) (writes : List ExtentWrite) (size : Int)

/-- The operation a call asks for. -/
def Call.op (cfg : Config) : Call → Op Unit
  | createFile parent name now mint retry => do
      let _ ← Op.createFile cfg parent name now mint retry
  | symlink parent name target now mint retry => do
      let _ ← Op.symlink cfg parent name target now mint retry
  | mkDir parent name now mint retry => do
      let _ ← Op.mkDir cfg parent name now mint retry
  | unlink parent name full => Op.unlink cfg parent name full
  | rmDir parent name full => Op.rmDir cfg parent name full
  | link parent name target now => Op.link cfg parent name target now
  | rename oldParent oldName newParent newName full =>
    Op.rename cfg oldParent oldName newParent newName full
  | updateInode now m => Op.updateInode cfg now m
  | allocateChunks id offsets replicas attempts =>
    Op.allocateChunks cfg id offsets replicas attempts
  | commitChunk id => Op.commitChunk cfg id
  | updateChunk chunk => Op.updateChunk cfg chunk
  | sealChunk id => Op.sealChunk cfg id
  | deleteChunk id => Op.deleteChunk cfg id
  | purgeChunk id catalog => Op.purgeChunk cfg id catalog
  | createEmpty id type bucketRoot now => Op.createEmpty cfg id type bucketRoot now
  | setInlineExtent now id ext size => Op.setInlineExtent cfg now id ext size
  | promoteToPages now id => Op.promoteToPages cfg now id
  | appendExtent now id ext offset => Op.appendExtent cfg now id ext offset
  | replaceExtents now id writes size => Op.replaceExtents cfg now id writes size

namespace Leader

/-- A leader of a term that starts on some rows. -/
def start (rows : Rows Value) (term : UInt64) : Leader := ⟨rows, [], term⟩

/-- The leader after a call, whatever its answer was. -/
def call (cfg : Config) (l : Leader) (c : Call) : Leader := (c.op cfg l).2

/-- The leader after calls, one after the other. -/
def run (cfg : Config) (calls : List Call) (l : Leader) : Leader := calls.foldl (call cfg) l

/-- A replica that applies the log of the leader. -/
def follower (cfg : Config) (rows : Rows Value) (l : Leader) : Rows Value :=
  Fsm.applyLog cfg.codec l.log rows

end Leader

/-! ### The extents of one inode -/

/-- An operation of `InodeStoreV2` on an inode. -/
inductive ExtentOp
  | setInlineExtent (now : Int) (ext : ExtentMeta) (size : Int)
  | promoteToPages (now : Int)
  | appendExtent (now : Int) (ref : ExtentRef) (extentSize : Int)
  | replaceExtents (now : Int) (writes : List ExtentWrite) (size : Int)

namespace ExtentOp

/-- What the store does. -/
def op (cfg : Config) (id : InodeID) : ExtentOp → Op Unit
  | setInlineExtent now ext size => Op.setInlineRow cfg now id ext size
  | promoteToPages now => Op.promoteToPages cfg now id
  | appendExtent now ref extentSize => Op.appendRow cfg now id ref extentSize
  | replaceExtents now writes size => Op.replaceRows cfg now id writes size

/-- What becomes of the list of extents. -/
def next (refs : List ExtentRef) : ExtentOp → List ExtentRef
  | setInlineExtent _ ext _ => [⟨ext.id, 0⟩]
  | promoteToPages _ => refs
  | appendExtent _ ref _ => refs ++ [ref]
  | replaceExtents _ writes _ => writes.map fun w => ⟨w.extent.id, w.offset⟩

/-- The leader after an operation that succeeds. -/
def step (cfg : Config) (id : InodeID) (l : Leader) (o : ExtentOp) : Option Leader :=
  match o.op cfg id l with
  | (.ok _, l') => some l'
  | (.error _, _) => none

end ExtentOp

end Nufs.Metadata
