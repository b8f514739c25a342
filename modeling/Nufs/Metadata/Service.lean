/-
The metadata service on a leader: every operation reads rows and proposes log entries.

A proposal is appended to the raft log and applied; the answer is that of the state
machine.  One kind of write goes past the log: the pages of an old extent root are
deleted in the leader's own database.  Numbers of new inodes and chunks, and the clock,
are given to an operation.
-/
import Nufs.Metadata.Fsm

namespace Nufs.Metadata

/-- `DirEntry`. -/
structure DirEntry where
  inodeID : InodeID
  type : FileType
  name : List Char
  deriving DecidableEq, Repr

/-- What stands in a row. -/
inductive Value
  | inode (row : InodeRow)
  | entry (entry : DirEntry)
  | chunk (chunk : ChunkMeta)
  /-- `ChunkTombstone`, with the replicas of the chunk. -/
  | tombstone (id : ChunkID) (replicas : Nat)
  | page (extents : List ExtentRef)
  | extent (extent : ExtentMeta)
  /-- `BucketUsage`. -/
  | usage (usedBytes objects : Int)
  | inodeID (id : InodeID)
  | raw (bytes : List UInt8)
  deriving DecidableEq, Repr

/-- The errors of an operation. -/
inductive ServiceErr
  | nameTooLong
  | invalidArgument
  | entryExists
  | entryNotFound
  | inodeNotFound
  | chunkNotFound
  | extentNotFound
  | notFile
  | notDirectory
  | dirNotEmpty
  | crossBucketRename
  | inodeModelMismatch
  | chunkAlreadySealed
  | chunkNotSealed
  /-- `ErrBackupMetadataConflict`. -/
  | conflict
  /-- A durable tombstone is referenced, or a purged chunk is. -/
  | referenced
  /-- A row does not decode. -/
  | malformed
  /-- The state machine refused the entry. -/
  | fsm (err : FsmErr)
  deriving DecidableEq, Repr

/-- How the service is configured, and which fenced batches it lets pass. -/
structure Config where
  useBucketStats : Bool
  wellShaped : ConditionalBatch Value → Bool

/-- Rows that decode as inodes. -/
def Config.codec (cfg : Config) : Codec Value where
  inode
    | .inode row => some (row.asV1.id, row.asV1.chunkMap)
    | _ => none
  version _ := none
  wellShaped := cfg.wellShaped

/-- A leader: its rows, and the log it has written in its term. -/
structure Leader where
  rows : Rows Value
  log : List (RaftLog Value)
  term : UInt64

/-- A part of an operation: its answer, and the leader after it. -/
def Op (α : Type) := Leader → Except ServiceErr α × Leader

namespace Op

/-- One part after the other; an error ends the operation. -/
def next {α β : Type} (m : Op α) (f : α → Op β) : Op β := fun l =>
  match m l with
  | (.ok a, l') => f a l'
  | (.error e, l') => (.error e, l')

instance monad : Monad Op where
  pure a := fun l => (.ok a, l)
  bind := next

/-- An operation ends with an error. -/
def fail {α : Type} (e : ServiceErr) : Op α := fun l => (.error e, l)

/-- The rows as they are now. -/
def rows : Op (Rows Value) := fun l => (.ok l.rows, l)

/-- Something that only reads. -/
def lift {α : Type} : Except ServiceErr α → Op α
  | .ok a => pure a
  | .error e => fail e

/-- Go on after an error, with the answer as a value. -/
def attempt {α : Type} (m : Op α) : Op (Except ServiceErr α) := fun l =>
  match m l with
  | (r, l') => (.ok r, l')

variable (cfg : Config)

/-- An entry is appended to the log and applied. -/
def logged (entry : RaftLogEntry Value) : Op Unit := fun l =>
  let entry : RaftLog Value := ⟨l.term, some entry⟩
  let answer := Fsm.apply cfg.codec l.rows entry
  (answer.1.mapError .fsm, { l with rows := answer.2, log := l.log ++ [entry] })

/-- A proposal; a conditional batch that is not canonical is not encoded. -/
def propose : RaftLogEntry Value → Op Unit
  | .conditional c =>
    if c.canonical cfg.codec then logged cfg (.conditional c) else fail (.fsm .invalid)
  | entry => logged cfg entry

/-- `putMsgpack`. -/
def put (key : Key) (value : Value) : Op Unit := propose cfg (.set key value)

/-- `deleteKey`. -/
def deleteKey (key : Key) : Op Unit := propose cfg (.delete key)

/-- `applyBatch`. -/
def applyBatch (ops : List (BatchOp Value)) : Op Unit :=
  if ops = [] then pure () else propose cfg (.batch ops)

/-- A conditional batch, with the error a failed precondition becomes. -/
def applyConditional (c : ConditionalBatch Value) (conflictErr : ServiceErr) : Op Unit := do
  match ← (propose cfg (.conditional c)).attempt with
  | .error (.fsm .conditionalConflict) => fail conflictErr
  | r => lift r

/-- `db.Delete`, on the leader alone. -/
def deleteLocal (key : Key) : Op Unit := fun l => (.ok (), { l with rows := l.rows.erase key })

end Op

/-! ### Reading rows -/

/-- The key is under `/ns/{id}/`. -/
def Key.isChildOf (id : InodeID) : Key → Bool
  | ns parent _ => decide (parent = id)
  | _ => false

namespace Rows

variable (rows : Rows Value)

/-- The row of an inode, in either model. -/
def inode (id : InodeID) : Except ServiceErr (Option InodeRow) :=
  match rows.lookup (.inode id) with
  | none => .ok none
  | some (.inode row) => .ok (some row)
  | some _ => .error .malformed

/-- The entry of a name. -/
def entry (parent : InodeID) (name : List Char) : Except ServiceErr (Option DirEntry) :=
  match rows.lookup (.ns parent name) with
  | none => .ok none
  | some (.entry e) => .ok (some e)
  | some _ => .error .malformed

/-- `readChunkTombstoneRaw` of a chunk. -/
def chunk (id : ChunkID) : Except ServiceErr (Option ChunkMeta) :=
  match rows.lookup (.chunk id) with
  | none => .ok none
  | some (.chunk c) => .ok (some c)
  | some _ => .error .malformed

/-- `getBucketRoot`. -/
def bucketRoot (parent : InodeID) : InodeID :=
  match rows.inode parent with
  | .ok (some row) => row.asV1.bucketRoot
  | _ => 0

/-- `readBucketStats`. -/
def bucketStats (root : InodeID) : Int × Int :=
  match rows.lookup (.bucketStats root) with
  | some (.usage usedBytes objects) => (usedBytes, objects)
  | _ => (0, 0)

/-- `addBucketStatsOp`. -/
def bucketStatsOp (cfg : Config) (root : InodeID) (deltaBytes deltaObjects : Int) :
    List (BatchOp Value) :=
  if ¬ cfg.useBucketStats ∨ root = 0 then []
  else
    let stats := rows.bucketStats root
    [.set (.bucketStats root) (.usage (stats.1 + deltaBytes) (stats.2 + deltaObjects))]

/-- A directory has an entry. -/
def hasChildren (id : InodeID) : Bool := decide (∃ k ∈ rows.keys, k.isChildOf id = true)

end Rows

end Nufs.Metadata
