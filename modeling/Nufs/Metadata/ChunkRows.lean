/-
Rows of chunks, of their tombstones and of the backup catalogue, shared by many calls.

A call of the metadata service reads rows one at a time and proposes log entries, and
other calls come in between.  Values are compared as they are stored; what they say is
read through a codec.
-/
import Nufs.Metadata.Fsm
import Nufs.Lib.Interleave

namespace Nufs.Chunks

open Nufs.Metadata Interleave

/-- `NodeID`. -/
abbrev NodeID := UInt64

/-- `time.Time`, in nanoseconds since the zero time. -/
abbrev Time := Int

/-- `time.Hour`. -/
def hour : Time := 3600 * 1000000000

/-- `ReplicaState`. -/
inductive ReplicaState
  | syncing
  | ready
  | stale
  | failed
  deriving DecidableEq, Repr

/-- `ReplicaInfo`. -/
structure ReplicaInfo where
  nodeID : NodeID
  addr : List Char
  state : ReplicaState
  diskPath : List Char
  shardIndex : Int
  deriving DecidableEq, Repr

/-- `ChunkState`. -/
inductive ChunkState
  | created
  | sealed
  | ready
  | degraded
  | orphan
  deriving DecidableEq, Repr

/-- `ChunkMeta`. -/
structure ChunkMeta where
  id : ChunkID
  size : Int
  state : ChunkState
  replicas : List ReplicaInfo
  checksum : UInt32
  deriving DecidableEq, Repr

/-- `ChunkTombstone`. -/
structure ChunkTombstone where
  chunkID : ChunkID
  replicas : List ReplicaInfo
  size : Int
  reason : List Char
  deletedAt : Time
  deleteAfter : Time
  deriving DecidableEq, Repr

/-- `CommittedBackup`. -/
structure CommittedBackup where
  id : List Char
  sourceClusterID : List Char
  createdAt : Time
  raftTerm : UInt64
  appliedIndex : UInt64
  totalBytes : Int
  deriving DecidableEq, Repr

/-- `BackupCatalogState`. -/
structure BackupCatalogState where
  backups : List CommittedBackup
  reconciledAt : Time
  deriving DecidableEq, Repr

/-- The errors of these calls. -/
inductive ChunkErr
  | invalidArgument
  | inodeNotFound
  | chunkNotFound
  | nodeNotFound
  | chunkAlreadySealed
  | chunkNotSealed
  /-- `ErrBackupMetadataConflict`. -/
  | conflict
  /-- A value does not decode. -/
  | malformed
  /-- Key and value identities differ. -/
  | identity
  /-- Negative chunk size. -/
  | negativeSize
  /-- The reason of a tombstone is required. -/
  | reasonRequired
  /-- The fields of a tombstone are not those of one. -/
  | invalidTombstone
  /-- Chunk and tombstone do not belong together. -/
  | invalidPair
  /-- The chunk is referenced. -/
  | referenced
  /-- `errChunkPurgeIneligible`. -/
  | purgeIneligible
  /-- The retained backup catalog is unavailable or empty. -/
  | catalogUnavailable
  /-- The backup catalog is invalid, not canonical, or differs from its index. -/
  | catalogInvalid
  /-- The catalog reconciliation is not fresh. -/
  | catalogNotFresh
  /-- A time that has to be given is zero. -/
  | timeRequired
  /-- A protected operation is rejected by generic apply. -/
  | protectedKey
  /-- The state machine refused the entry. -/
  | fsm (err : FsmErr)
  deriving DecidableEq, Repr

/-- How values are stored: what `unmarshalValue` and `marshalValue` do. -/
structure ChunkCodec (V : Type) extends Codec V where
  chunk : V → Option ChunkMeta
  marshalChunk : ChunkMeta → V
  tombstone : V → Option ChunkTombstone
  marshalTombstone : ChunkTombstone → V
  catalog : V → Option BackupCatalogState
  marshalCatalog : BackupCatalogState → V
  backup : V → Option CommittedBackup
  marshalBackup : CommittedBackup → V
  /-- The chunks that the row of an inode refers to, in either model. -/
  references : Rows V → InodeID → V → Option (List ChunkID)
  /-- The row of an inode with chunks added. -/
  addChunks : V → List ChunkRef → V
  /-- The row of a ready extent as a degraded one; nothing, if the extent is not ready. -/
  degradeExtent : V → Option (Option V)
  /-- `decodeInodeReferenceEpoch` takes the value. -/
  isEpoch : V → Bool
  tombstone_marshal : ∀ t, tombstone (marshalTombstone t) = some t
  catalog_marshal : ∀ s, catalog (marshalCatalog s) = some s
  inode_addChunks : ∀ v id refs new, inode v = some (id, refs) →
    inode (addChunks v new) = some (id, refs ++ new)

/-- Values that are stored as they are. -/
inductive Stored
  | inode (id : InodeID) (chunks : List ChunkRef)
  | chunk (chunk : ChunkMeta)
  | tombstone (tombstone : ChunkTombstone)
  | catalog (state : BackupCatalogState)
  | backup (backup : CommittedBackup)
  deriving DecidableEq, Repr

/-- The codec of values that are stored as they are; every batch is well shaped. -/
def Stored.codec : ChunkCodec Stored where
  inode
    | inode id chunks => some (id, chunks)
    | _ => none
  version _ := none
  wellShaped _ := true
  chunk
    | chunk c => some c
    | _ => none
  marshalChunk := chunk
  tombstone
    | tombstone t => some t
    | _ => none
  marshalTombstone := tombstone
  catalog
    | catalog s => some s
    | _ => none
  marshalCatalog := catalog
  backup
    | backup b => some b
    | _ => none
  marshalBackup := backup
  references _ _
    | inode _ chunks => some (chunks.map ChunkRef.id)
    | _ => none
  addChunks
    | inode id chunks, new => inode id (chunks ++ new)
    | value, _ => value
  degradeExtent _ := none
  isEpoch _ := false
  tombstone_marshal _ := rfl
  catalog_marshal _ := rfl
  inode_addChunks := by
    intro v id refs new h
    cases v with
    | inode id' chunks =>
      obtain ⟨rfl, rfl⟩ := Prod.mk.inj (Option.some.inj h)
      rfl
    | chunk c | tombstone t | catalog s | backup b => cases h

/-! ### Requests of a call -/

/-- What a call asks the store for. -/
inductive Request (V : Type)
  /-- `getRaw`. -/
  | get (key : Key)
  /-- An iterator: the rows as they are when it is opened. -/
  | scan
  /-- A log entry, in the term it is committed in. -/
  | propose (log : RaftLog V)

variable {V : Type}

/-- What the store answers. -/
def Request.Answer : Request V → Type
  | get _ => Option V
  | scan => Rows V
  | propose _ => Except FsmErr Unit

/-- A request is answered. -/
def answer [DecidableEq V] (codec : ChunkCodec V) :
    (r : Request V) → Rows V → r.Answer × Rows V
  | .get key, rows => (rows.lookup key, rows)
  | .scan, rows => (rows, rows)
  | .propose log, rows => Fsm.apply codec.toCodec rows log

/-- A call, or a part of one: it makes requests and ends with a value or an error. -/
def Action (V α : Type) := Prog (Request V) Request.Answer (Except ChunkErr α)

namespace Action

variable {α β : Type}

/-- The rest of a call; an error ends it. -/
def rest (f : α → Action V β) : Except ChunkErr α → Action V β
  | .ok a => f a
  | .error e => Prog.pure (.error e)

instance monad : Monad (Action V) where
  pure a := Prog.pure (.ok a)
  bind m f := Prog.bind m (rest f)

/-- A call ends with an error. -/
def fail (e : ChunkErr) : Action V α := Prog.pure (.error e)

/-- Something that makes no request. -/
def lift (r : Except ChunkErr α) : Action V α := Prog.pure r

/-- Go on after an error, with the result as a value. -/
def attempt (m : Action V α) : Action V (Except ChunkErr α) :=
  Prog.bind m fun r => Prog.pure (.ok r)

/-- `readChunkTombstoneRaw`, `readBackupMetadataRaw`. -/
def get (key : Key) : Action V (Option V) := Prog.call (.get key) fun v => Prog.pure (.ok v)

/-- A consistent view of all rows. -/
def scan : Action V (Rows V) := Prog.call .scan fun rows => Prog.pure (.ok rows)

/-- A log entry is proposed. -/
def propose (log : RaftLog V) : Action V Unit :=
  Prog.call (.propose log) fun r => Prog.pure (r.mapError .fsm)

/-- A conditional batch; a precondition that fails is a conflict. -/
def applyConditional (term : UInt64) (c : ConditionalBatch V) : Action V Unit := do
  match ← (propose ⟨term, some (.conditional c)⟩).attempt with
  | .error (.fsm .conditionalConflict) => fail .conflict
  | r => lift r

end Action

/-- A fenced batch. -/
def fenced (preconditions : List (Precondition V)) (mutations : List (BatchOp V)) :
    ConditionalBatch V := ⟨4, 0, preconditions, mutations, []⟩

end Nufs.Chunks
