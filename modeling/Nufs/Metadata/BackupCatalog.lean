/-
The catalogue of committed backups.

One row holds the whole catalogue with the time it was reconciled with the backup
repository, and every backup has a row of its own in an index.  A replacement writes both
in one entry and compares nothing: whatever catalogue is there is replaced.
-/
import Nufs.Metadata.ChunkRows
import Mathlib.Data.List.Sort

namespace Nufs.Chunks

open Nufs.Metadata

/-- `keyBackupCatalog`: `backup/catalog-state`. -/
def keyBackupCatalog : Key :=
  .other ['b', 'a', 'c', 'k', 'u', 'p', '/', 'c', 'a', 't', 'a', 'l', 'o', 'g', '-', 's', 't', 'a',
    't', 'e']

/-- `maxBackupOpaqueIDBytes`. -/
def maxBackupOpaqueIDBytes : Nat := 255

/-- `validateOpaqueID`. -/
def validateOpaqueID (id : List Char) : Bool :=
  (id.head?.any Char.isAlphanum) && decide (id.length ≤ maxBackupOpaqueIDBytes) &&
    id.all fun c => c.isAlphanum || c == '-' || c == '_' || c == '.' || c == ':'

/-- `isWindowsVolumePath`. -/
def isWindowsVolumePath : List Char → Bool
  | a :: ':' :: _ => a.isAlpha
  | _ => false

/-- `validateCatalogBackupID`: an opaque number is no path, but may start like a volume. -/
def validateCatalogBackupID (id : List Char) : Bool :=
  !isWindowsVolumePath id && validateOpaqueID id

/-- `normalizeCommittedBackup` takes the entry. -/
def CommittedBackup.valid (b : CommittedBackup) : Bool :=
  validateCatalogBackupID b.id && validateOpaqueID b.sourceClusterID &&
    decide (b.createdAt ≠ 0 ∧ b.raftTerm ≠ 0 ∧ b.appliedIndex ≠ 0 ∧ 0 ≤ b.totalBytes)

/-- The order of the catalogue: the newest backup first. -/
def CommittedBackup.Before (a b : CommittedBackup) : Prop :=
  if a.createdAt = b.createdAt then a.id < b.id else b.createdAt < a.createdAt

instance CommittedBackup.Before.decidable : DecidableRel CommittedBackup.Before :=
  fun a b => inferInstanceAs
    (Decidable (if a.createdAt = b.createdAt then a.id < b.id else b.createdAt < a.createdAt))

/-- `normalizeBackupCatalog`. -/
def normalizeBackupCatalog (backups : List CommittedBackup) (reconciledAt : Time) :
    Except ChunkErr BackupCatalogState :=
  if reconciledAt = 0 then .error .timeRequired
  else if ¬ backups.all CommittedBackup.valid then .error .catalogInvalid
  else if ¬ (backups.map CommittedBackup.id).Nodup then .error .catalogInvalid
  else .ok ⟨backups.insertionSort CommittedBackup.Before, reconciledAt⟩

variable {V : Type} (codec : ChunkCodec V)

/-- The batch of `replaceCommittedBackupCatalog`; a term is expected unless it is zero. -/
def catalogBatch (state : BackupCatalogState) (expectedRaftTerm : UInt64) : ConditionalBatch V where
  version := if expectedRaftTerm = 0 then 1 else 2
  expectedRaftTerm := expectedRaftTerm
  preconditions := []
  mutations := [.set keyBackupCatalog (codec.marshalCatalog state)]
  prefixReplacements :=
    [⟨true, state.backups.map fun b => (.backupCatalog b.id, codec.marshalBackup b)⟩]

/-- `replaceCommittedBackupCatalog`. -/
def replaceCommittedBackupCatalog (term : UInt64) (backups : List CommittedBackup)
    (reconciledAt : Time) (expectedRaftTerm : UInt64) : Action V Unit := do
  let state ← Action.lift (normalizeBackupCatalog backups reconciledAt)
  Action.applyConditional term (catalogBatch codec state expectedRaftTerm)

/-- A row of the index that decodes, is valid and has the key of its backup. -/
def indexedBackup (rows : Rows V) (key : Key) : Option CommittedBackup := do
  let value ← rows.lookup key
  let entry ← codec.backup value
  if entry.valid ∧ key = .backupCatalog entry.id then some entry else none

/-- The index has the backups of the catalogue and no others. -/
def indexAgrees (rows : Rows V) (backups : List CommittedBackup) : Bool :=
  let keys := rows.keys.filter fun k => k.InCatalog
  decide (∀ k ∈ keys, (indexedBackup codec rows k).isSome) &&
    decide (keys.card = backups.length) &&
    backups.all fun b => decide (indexedBackup codec rows (.backupCatalog b.id) = some b)

/-- `GetBackupCatalogState`: the row of the catalogue, and after it the index. -/
def getBackupCatalogState : Action V (Option BackupCatalogState) := do
  match ← Action.get keyBackupCatalog with
  | none => return none
  | some raw =>
    match codec.catalog raw with
    | none => Action.fail .malformed
    | some state =>
      let normalized ← Action.lift (normalizeBackupCatalog state.backups state.reconciledAt)
      if state ≠ normalized then Action.fail .catalogInvalid
      else
        let rows ← Action.scan
        if indexAgrees codec rows normalized.backups then return some normalized
        else Action.fail .catalogInvalid

end Nufs.Chunks
