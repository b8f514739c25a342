/-
The metadata state machine that raft drives.

The service keeps rows under keys.  A committed log entry sets or deletes rows, as a
batch or under preconditions on rows.  Plain entries pass a check of the chunks an inode
adds, which reads rows too: every kind of entry can be refused in one state and accepted
in another.
-/
import Nufs.Metadata.Types
import Nufs.Lib.FinmapFilter

namespace Nufs.Metadata

/-- The key of a row, by the namespace it is in; in a name a character is a byte. -/
inductive Key
  /-- `/inode/{id}`. -/
  | inode (id : InodeID)
  /-- `/ns/{parent}/{name}`. -/
  | ns (parent : InodeID) (name : List Char)
  /-- `/chunk/{id}`. -/
  | chunk (id : ChunkID)
  /-- `chunk-tombstone/{id}`. -/
  | tombstone (id : ChunkID)
  /-- `keyInodeReferenceEpoch`. -/
  | epoch
  /-- `/extent-meta/{id}`. -/
  | extentMeta (id : ChunkID)
  /-- `/extent-page/{inode}/{root}/{page}`. -/
  | extentPage (id : InodeID) (root pageNo : Nat)
  /-- `/bucket-stats/{root}`. -/
  | bucketStats (root : InodeID)
  /-- `/freelist/{id}`. -/
  | freeList (id : InodeID)
  /-- `backup/catalog/{name}`. -/
  | backupCatalog (name : List Char)
  /-- Any other key. -/
  | other (name : List Char)
  deriving DecidableEq, Repr

/-- The key is under `backup/catalog/`. -/
def Key.InCatalog : Key → Prop
  | backupCatalog _ => True
  | _ => False

instance Key.InCatalog.decidable : DecidablePred Key.InCatalog
  | .backupCatalog _ => isTrue trivial
  | .inode _ | .ns _ _ | .chunk _ | .tombstone _ | .epoch | .extentMeta _ | .extentPage _ _ _
  | .bucketStats _ | .freeList _ | .other _ => isFalse not_false

/-- The rows of a store. -/
abbrev Rows (V : Type) := Finmap fun _ : Key => V

/-- `BatchOp`. -/
inductive BatchOp (V : Type)
  | set (key : Key) (value : V)
  | delete (key : Key)
  deriving DecidableEq, Repr

namespace BatchOp

variable {V : Type}

/-- The row an operation is about. -/
def key : BatchOp V → Key
  | set key _ => key
  | delete key => key

/-- An operation on the rows. -/
def apply (rows : Rows V) : BatchOp V → Rows V
  | set key value => rows.insert key value
  | delete key => rows.erase key

end BatchOp

/-- `ConditionalPrecondition`: a row as it is expected, or its absence. -/
structure Precondition (V : Type) where
  key : Key
  expected : Option V
  deriving DecidableEq, Repr

/-- `ConditionalPrefixReplacement`. -/
structure PrefixReplacement (V : Type) where
  /-- The prefix is that of the backup catalogue, the only one allowed. -/
  isCatalog : Bool
  sets : List (Key × V)
  deriving DecidableEq, Repr

/-- `ConditionalBatch`. -/
structure ConditionalBatch (V : Type) where
  version : UInt8
  expectedRaftTerm : UInt64
  preconditions : List (Precondition V)
  mutations : List (BatchOp V)
  prefixReplacements : List (PrefixReplacement V)
  deriving DecidableEq, Repr

/-- `RaftLogEntry`. -/
inductive RaftLogEntry (V : Type)
  | set (key : Key) (value : V)
  | delete (key : Key)
  | batch (ops : List (BatchOp V))
  | conditional (batch : ConditionalBatch V)
  | cas (key : Key) (expectedVer : UInt64) (newData : V)
  deriving DecidableEq, Repr

/-- `raft.Log`: an entry in the term it was committed in; none, if it carries no data. -/
structure RaftLog (V : Type) where
  term : UInt64
  entry : Option (RaftLogEntry V)
  deriving DecidableEq, Repr

/-- What the checks read from stored values. -/
structure Codec (V : Type) where
  /-- `unmarshalValue` into an inode: its number and its chunks. -/
  inode : V → Option (InodeID × List ChunkRef)
  /-- `unmarshalValue` into an inode with its version. -/
  version : V → Option UInt64
  /-- The sizes `validateConditionalBatch` allows, and the shapes of the fenced versions. -/
  wellShaped : ConditionalBatch V → Bool

/-- Why an entry is refused. -/
inductive FsmErr
  /-- `ErrRaftConditionalConflict`. -/
  | conditionalConflict
  /-- `ErrVersionConflict`. -/
  | versionConflict
  /-- The row of a compare-and-swap is absent. -/
  | notFound
  /-- A value does not decode as an inode. -/
  | malformed
  /-- Inode key and value identities differ. -/
  | identity
  /-- A chunk is unavailable for attachment. -/
  | unavailable
  /-- A chunk is tombstoned. -/
  | tombstoned
  /-- The inode reference epoch is internal. -/
  | internal
  /-- The conditional batch is not canonical. -/
  | invalid
  deriving DecidableEq, Repr

namespace ConditionalBatch

variable {V : Type} (c : ConditionalBatch V)

/-- `hasInodeAllocationPrecondition`. -/
def hasInodeAllocationPrecondition : Bool :=
  c.preconditions.any fun p => match p.key with
    | .inode _ => true
    | _ => false

/-- The limits of `canonicalConditionalBatch`: on preconditions and on mutations. -/
def limits : Nat × Nat :=
  if c.version = 4 ∧ c.hasInodeAllocationPrecondition then
    (2 + 2 * maxChunkAllocationBatch, 2 + maxChunkAllocationBatch)
  else (1024, 4096)

/-- Prefix replacements: of the catalogue, not overlapping, with rows under the prefix only. -/
def replacementsValid : Bool :=
  decide (c.prefixReplacements.length ≤ 1) &&
    c.prefixReplacements.all fun r =>
      r.isCatalog && decide (r.sets.length ≤ 4096) && decide (r.sets.map Prod.fst).Nodup &&
        (r.sets.all fun set => decide (set.1.InCatalog ∧ set.1 ≠ .backupCatalog [])) &&
        c.mutations.all fun op => !decide op.key.InCatalog

/-- `canonicalConditionalBatch`, which sorts a batch that has each key once. -/
def canonical (codec : Codec V) : Bool :=
  decide (c.version ∈ [1, 2, 3, 4]) &&
    decide (c.version = 1 → c.expectedRaftTerm = 0) &&
    decide (c.version = 2 → c.expectedRaftTerm ≠ 0) &&
    decide (c.preconditions.length ≤ c.limits.1) && decide (c.mutations.length ≤ c.limits.2) &&
    decide (c.preconditions.map Precondition.key).Nodup &&
    decide (c.mutations.map BatchOp.key).Nodup && c.replacementsValid && codec.wellShaped c

end ConditionalBatch

/-- One change of the rows: of a row, or of all rows of the backup catalogue. -/
inductive Change (V : Type)
  | op (op : BatchOp V)
  | clearCatalog

namespace Change

variable {V : Type}

/-- A change of the rows. -/
def apply (rows : Rows V) : Change V → Rows V
  | op o => o.apply rows
  | clearCatalog => rows.filterKeys fun k => ¬ k.InCatalog

end Change

namespace Fsm

variable {V : Type} [DecidableEq V] (codec : Codec V)

/-- `decodeReferencedInode`: the chunks of a stored inode. -/
def decodeReferencedInode (rows : Rows V) (id : InodeID) : Except FsmErr (List ChunkRef) :=
  match rows.lookup (.inode id) with
  | none => .ok []
  | some raw =>
    match codec.inode raw with
    | none => .error .malformed
    | some inode => if inode.1 = id then .ok inode.2 else .error .identity

/-- A chunk can be attached: it has a row and no tombstone. -/
def available (rows : Rows V) (id : ChunkID) : Bool :=
  (rows.lookup (.chunk id)).isSome && !(rows.lookup (.tombstone id)).isSome

/-- `addedChunkReferences`; chunk maps that do not differ add nothing. -/
def addedChunkReferences (old new : List ChunkRef) : List ChunkID :=
  (new.map ChunkRef.id).filter fun id => id ∉ old.map ChunkRef.id

/-- The check of a row of an inode. -/
def checkInode (rows : Rows V) (id : InodeID) (value : V) : Except FsmErr Unit := do
  let old ← decodeReferencedInode codec rows id
  match codec.inode value with
  | none => .error .malformed
  | some inode =>
    if inode.1 ≠ id then .error .identity
    else if (addedChunkReferences old inode.2).all (available rows) then .ok ()
    else .error .unavailable

/-- The check of one operation. -/
def checkOp (rows : Rows V) : BatchOp V → Except FsmErr Unit
  | .set .epoch _ => .error .internal
  | .delete .epoch => .error .internal
  | .set (.inode id) value => checkInode codec rows id value
  | .delete (.inode id) => do
      let _ ← decodeReferencedInode codec rows id
      return ()
  | .set (.chunk id) _ =>
    if (rows.lookup (.tombstone id)).isSome then .error .tombstoned else .ok ()
  | _ => .ok ()

/-- `prepareReferenceAwareBatch`: an operation is checked over those before it. -/
def prepareReferenceAwareBatch (rows : Rows V) : List (BatchOp V) → Except FsmErr Unit
  | [] => .ok ()
  | op :: ops => do
      checkOp codec rows op
      prepareReferenceAwareBatch (op.apply rows) ops

/-- The preconditions of a conditional batch hold. -/
def preconditionsHold (rows : Rows V) (c : ConditionalBatch V) : Bool :=
  c.preconditions.all fun p => decide (rows.lookup p.key = p.expected)

/-- What `Apply` checks before it changes a row. -/
def judge (rows : Rows V) (l : RaftLog V) : Except FsmErr Unit :=
  match l.entry with
  | none => .ok ()
  | some (.set key value) => prepareReferenceAwareBatch codec rows [.set key value]
  | some (.delete key) => prepareReferenceAwareBatch codec rows [.delete key]
  | some (.batch ops) => prepareReferenceAwareBatch codec rows ops
  | some (.conditional c) =>
    if c.expectedRaftTerm ≠ 0 ∧ c.expectedRaftTerm ≠ l.term then .error .conditionalConflict
    else if ¬ c.canonical codec then .error .invalid
    else if preconditionsHold rows c then .ok ()
    else .error .conditionalConflict
  | some (.cas key expectedVer newData) =>
    match rows.lookup key with
    | none => .error .notFound
    | some raw =>
      match codec.version raw with
      | none => .error .malformed
      | some version =>
        if version = expectedVer then prepareReferenceAwareBatch codec rows [.set key newData]
        else .error .versionConflict

/-- The changes an entry makes, in their order. -/
def changes (l : RaftLog V) : List (Change V) :=
  match l.entry with
  | none => []
  | some (.set key value) => [.op (.set key value)]
  | some (.delete key) => [.op (.delete key)]
  | some (.batch ops) => ops.map .op
  | some (.conditional c) =>
    c.mutations.map .op ++ c.prefixReplacements.flatMap fun r =>
      .clearCatalog :: r.sets.map fun set => .op (.set set.1 set.2)
  | some (.cas key _ newData) => [.op (.set key newData)]

/-- `Apply`: the answer, and the rows. -/
def apply (rows : Rows V) (l : RaftLog V) : Except FsmErr Unit × Rows V :=
  match judge codec rows l with
  | .error e => (.error e, rows)
  | .ok _ => (.ok (), (changes l).foldl Change.apply rows)

/-- A log applied to the rows. -/
def applyLog (log : List (RaftLog V)) (rows : Rows V) : Rows V :=
  log.foldl (fun rows l => (apply codec rows l).2) rows

end Fsm

end Nufs.Metadata
