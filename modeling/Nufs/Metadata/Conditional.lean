/-
Conditional batches as they stand in the raft log and as they are applied to the rows of
a Pebble database: byte keys and byte values.

A batch names rows as they are expected, rows to set or delete, and key ranges to
replace.  It is sorted by key before it is checked, so its canonical form does not
depend on the order it was built in.  All checks come before the first change, and the
changes are committed as one database batch.

Some versions of a batch may only have certain shapes.  The parts of these checks that
decode stored values are given from outside (`Shapes`); which of them is asked, and when,
is part of the model.
-/
import Nufs.Metadata.Types
import Nufs.Lib.FinmapFilter
import Nufs.Lib.ByteOrder
import Nufs.Lib.KeySort

namespace Nufs.Metadata.Pebble

open ByteOrder KeySort

/-! ### Batches -/

/-- `BatchOp`. -/
structure BatchOp where
  delete : Bool
  key : List UInt8
  value : List UInt8
  deriving DecidableEq, Repr

/-- `ConditionalPrecondition`. -/
structure ConditionalPrecondition where
  key : List UInt8
  expectedValue : List UInt8
  expectAbsent : Bool
  deriving DecidableEq, Repr

/-- `ConditionalPrefixReplacement`: every row under the prefix goes, the sets come. -/
structure ConditionalPrefixReplacement where
  keyPrefix : List UInt8
  sets : List BatchOp
  deriving DecidableEq, Repr

/-- `ConditionalBatch`. -/
structure ConditionalBatch where
  version : UInt8
  expectedRaftTerm : UInt64
  preconditions : List ConditionalPrecondition
  mutations : List BatchOp
  prefixReplacements : List ConditionalPrefixReplacement
  deriving DecidableEq, Repr

def conditionalBatchVersion : UInt8 := 1
def conditionalBatchTermFencedVersion : UInt8 := 2
def chunkTombstoneConditionalBatchVersion : UInt8 := 3
def chunkTombstoneFencedBatchVersion : UInt8 := 4
def maxConditionalPreconditions : Nat := 1024
def maxConditionalMutations : Nat := 4096
def maxConditionalPrefixReplacements : Nat := 64
def maxConditionalReplacementSets : Nat := 4096
def maxConditionalKeyBytes : Nat := 4 * 2 ^ 10
def maxConditionalValueBytes : Nat := 4 * 2 ^ 20
def maxRaftLogEntryBytes : Nat := 8 * 2 ^ 20

/-- The bytes of a key that is written out. -/
def ascii (s : String) : List UInt8 := s.toList.map fun c => UInt8.ofNat c.toNat

def prefixInode : List UInt8 := ascii "/inode/"
def prefixBackupCatalog : List UInt8 := ascii "backup/catalog/"

/-- Why a batch is refused. -/
inductive BatchErr
  /-- conditional batch is required -/
  | required
  /-- unsupported conditional batch version -/
  | unsupportedVersion (version : UInt8)
  /-- conditional precondition count exceeds -/
  | preconditionCount (limit : Nat)
  /-- conditional mutation count exceeds -/
  | mutationCount (limit : Nat)
  /-- conditional prefix replacement count exceeds -/
  | replacementCount (limit : Nat)
  /-- conditional batch v1 cannot carry an expected Raft term -/
  | unexpectedTerm
  /-- term-fenced conditional batch requires an expected Raft term -/
  | termRequired
  | emptyKey (field : String)
  | longKey (field : String)
  /-- absence precondition carries an expected value -/
  | absenceValue (key : List UInt8)
  /-- conditional expected value exceeds -/
  | longExpectedValue
  | duplicatePrecondition (key : List UInt8)
  /-- delete mutation carries a value -/
  | deleteValue (key : List UInt8)
  /-- conditional mutation value exceeds -/
  | longMutationValue
  | duplicateMutation (key : List UInt8)
  /-- conditional prefix replacement is not an allowed durable namespace -/
  | prefixNotAllowed (keyPrefix : List UInt8)
  /-- conditional replacement set count exceeds -/
  | setCount (limit : Nat)
  /-- overlapping conditional prefix replacements -/
  | overlapping (previous keyPrefix : List UInt8)
  /-- prefix replacement contains delete set -/
  | deleteSet (keyPrefix : List UInt8)
  /-- replacement key is not under prefix -/
  | notUnder (key keyPrefix : List UInt8)
  /-- conditional replacement value exceeds -/
  | longReplacementValue
  | duplicateSet (key : List UInt8)
  /-- mutation key conflicts with prefix replacement -/
  | mutationConflict (key keyPrefix : List UInt8)
  /-- raft log entry exceeds -/
  | entryTooLong
  /-- The shape of a batch of a fenced version. -/
  | shape (message : String)
  deriving DecidableEq, Repr

/-! ### Shapes of the fenced versions -/

/-- The checks of shapes that decode the values of a batch. -/
structure Shapes where
  backupTask : ConditionalBatch → Except String Unit
  backupCatalog : ConditionalBatch → Except String Unit
  legacyCreate : ConditionalBatch → Except String Unit
  legacyPurge : ConditionalBatch → Except String Unit
  allocation : ConditionalBatch → Except String Unit
  metadataUpdate : ConditionalBatch → Except String Unit
  fencedCreate : ConditionalBatch → Except String Unit
  fencedPurge : ConditionalBatch → Except String Unit

/-- The digits of a number without a leading zero, of at most 64 bits. -/
def isDecimal (digits : List UInt8) : Bool :=
  decide (digits ≠ []) && digits.all (fun d => decide (48 ≤ d ∧ d ≤ 57)) &&
    (decide (digits.head? ≠ some 48) || decide (digits.length = 1)) &&
    decide (digits.foldl (fun n d => 10 * n + (d.toNat - 48)) 0 < 2 ^ 64)

/-- `validInodeMetadataKey`. -/
def validInodeMetadataKey (key : List UInt8) : Bool :=
  prefixInode.isPrefixOf key && isDecimal (key.drop prefixInode.length)

/-- `hasInodeAllocationPrecondition`. -/
def hasInodeAllocationPrecondition (preconditions : List ConditionalPrecondition) : Bool :=
  preconditions.any fun p => validInodeMetadataKey p.key

namespace Shapes

variable (shapes : Shapes) (c : ConditionalBatch)

/-- `validateTermFencedBackupConditionalBatch`. -/
def termFenced : Except String Unit :=
  match c.prefixReplacements.length with
  | 0 => shapes.backupTask c
  | 1 => shapes.backupCatalog c
  | _ => .error "term-fenced conditional batch has an unsupported shape"

/-- A tombstone batch carries no term and replaces no prefix. -/
def envelope : Bool := decide (c.expectedRaftTerm = 0 ∧ c.prefixReplacements = [])

/-- `validateChunkTombstoneConditionalBatch`. -/
def tombstone : Except String Unit :=
  if ¬ envelope c then .error "chunk tombstone conditional batch has an invalid envelope"
  else if c.preconditions.length ≠ 2 ∨ c.mutations.length = 0 then
    .error "chunk tombstone conditional batch has an invalid shape"
  else
    match c.mutations.length with
    | 1 => shapes.legacyCreate c
    | 2 => shapes.legacyPurge c
    | _ => .error "chunk tombstone conditional batch has too many mutations"

/-- `validateChunkTombstoneFencedBatch`. -/
def tombstoneFenced : Except String Unit :=
  if ¬ envelope c then .error "chunk tombstone conditional batch has an invalid envelope"
  else if c.mutations.length = 0 then
    .error "chunk tombstone conditional batch has an invalid shape"
  else if hasInodeAllocationPrecondition c.preconditions then shapes.allocation c
  else
    match c.mutations.length with
    | 1 =>
      match c.preconditions.length with
      | 2 => shapes.metadataUpdate c
      | 3 => shapes.fencedCreate c
      | _ => .error "chunk tombstone fenced create/update has an invalid precondition shape"
    | 2 =>
      if c.preconditions.length ≠ 4 then
        .error "chunk tombstone purge has an invalid precondition shape"
      else shapes.fencedPurge c
    | _ => .error "chunk tombstone conditional batch has too many mutations"

/-- The shape a batch has to have in its version. -/
def check : Except String Unit :=
  if c.version = conditionalBatchTermFencedVersion then shapes.termFenced c
  else if c.version = chunkTombstoneConditionalBatchVersion then shapes.tombstone c
  else if c.version = chunkTombstoneFencedBatchVersion then shapes.tombstoneFenced c
  else .ok ()

end Shapes

/-! ### Sizes -/

namespace BatchOp

/-- How many bytes `writeBatchOp` writes. -/
def encodedSize (op : BatchOp) : Nat :=
  1 + 4 + op.key.length + if op.delete then 0 else 4 + op.value.length

end BatchOp

/-- How many bytes a precondition takes. -/
def ConditionalPrecondition.encodedSize (p : ConditionalPrecondition) : Nat :=
  1 + 4 + p.key.length + if p.expectAbsent then 0 else 4 + p.expectedValue.length

/-- How many bytes a replacement takes. -/
def ConditionalPrefixReplacement.encodedSize (r : ConditionalPrefixReplacement) : Nat :=
  4 + r.keyPrefix.length + 4 +
    (r.sets.map fun s => 4 + s.key.length + 4 + s.value.length).sum

/-- `conditionalBatchEncodedSize`. -/
def conditionalBatchEncodedSize (c : ConditionalBatch) : Nat :=
  2 + 3 * 4 + (if c.version = conditionalBatchTermFencedVersion then 8 else 0) +
    (c.preconditions.map (·.encodedSize)).sum + (c.mutations.map (·.encodedSize)).sum +
    (c.prefixReplacements.map (·.encodedSize)).sum

/-! ### The canonical form -/

/-- `validateConditionalKey`. -/
def validateConditionalKey (field : String) (key : List UInt8) : Except BatchErr Unit :=
  if key.length = 0 then .error (.emptyKey field)
  else if maxConditionalKeyBytes < key.length then .error (.longKey field)
  else .ok ()

/-- What is checked of a precondition by itself. -/
def validatePrecondition (p : ConditionalPrecondition) : Except BatchErr Unit := do
  validateConditionalKey "precondition key" p.key
  if p.expectAbsent ∧ p.expectedValue.length ≠ 0 then .error (.absenceValue p.key)
  else if ¬ p.expectAbsent ∧ maxConditionalValueBytes < p.expectedValue.length then
    .error .longExpectedValue
  else .ok ()

/-- What is checked of a mutation by itself. -/
def validateMutation (op : BatchOp) : Except BatchErr Unit := do
  validateConditionalKey "mutation key" op.key
  if op.delete ∧ op.value.length ≠ 0 then .error (.deleteValue op.key)
  else if ¬ op.delete ∧ maxConditionalValueBytes < op.value.length then .error .longMutationValue
  else .ok ()

/-- What is checked of a set of a replacement by itself. -/
def validateSet (keyPrefix : List UInt8) (set : BatchOp) : Except BatchErr Unit :=
  if set.delete then .error (.deleteSet keyPrefix)
  else do
    validateConditionalKey "replacement key" set.key
    if ¬ keyPrefix <+: set.key ∨ set.key.length = keyPrefix.length then
      .error (.notUnder set.key keyPrefix)
    else if maxConditionalValueBytes < set.value.length then .error .longReplacementValue
    else .ok ()

/-- A mutation has no key under a replaced prefix. -/
def validateApart (keyPrefix : List UInt8) : List BatchOp → Except BatchErr Unit
  | [] => .ok ()
  | op :: ops =>
    if keyPrefix <+: op.key then .error (.mutationConflict op.key keyPrefix)
    else validateApart keyPrefix ops

/-- `validateConditionalReplacementPrefix`. -/
def validateConditionalReplacementPrefix (keyPrefix : List UInt8) : Except BatchErr Unit :=
  if keyPrefix = prefixBackupCatalog then .ok () else .error (.prefixNotAllowed keyPrefix)

/-- A replacement does not overlap the one before it. -/
def validateOverlap (previous : Option (List UInt8)) (keyPrefix : List UInt8) :
    Except BatchErr Unit :=
  match previous with
  | some p => if p <+: keyPrefix then .error (.overlapping p keyPrefix) else .ok ()
  | none => .ok ()

/-- The replacements of a batch, behind a previous one. -/
def validateReplacements (mutations : List BatchOp) :
    Option (List UInt8) → List ConditionalPrefixReplacement → Except BatchErr Unit
  | _, [] => .ok ()
  | previous, r :: rs => do
      validateConditionalReplacementPrefix r.keyPrefix
      if maxConditionalReplacementSets < r.sets.length then
        .error (.setCount maxConditionalReplacementSets)
      else do
        validateOverlap previous r.keyPrefix
        checkEach (validateSet r.keyPrefix) (fun s => rank s.key) (fun s => .duplicateSet s.key)
          none r.sets
        validateApart r.keyPrefix mutations
        validateReplacements mutations (some r.keyPrefix) rs

/-- The term a batch carries fits its version. -/
def validateTerm (c : ConditionalBatch) : Except BatchErr Unit :=
  if c.version = conditionalBatchVersion ∧ c.expectedRaftTerm ≠ 0 then .error .unexpectedTerm
  else if c.version = conditionalBatchTermFencedVersion ∧ c.expectedRaftTerm = 0 then
    .error .termRequired
  else .ok ()

/-- The versions that are known. -/
def supportedVersion (version : UInt8) : Bool :=
  decide (version = conditionalBatchVersion ∨ version = conditionalBatchTermFencedVersion ∨
    version = chunkTombstoneConditionalBatchVersion ∨ version = chunkTombstoneFencedBatchVersion)

/-- `validateConditionalBatch`, of a batch whose version is known. -/
def validateConditionalBatch (shapes : Shapes) (c : ConditionalBatch) : Except BatchErr Unit := do
  validateTerm c
  checkEach validatePrecondition (fun p => rank p.key) (fun p => .duplicatePrecondition p.key)
    none c.preconditions
  checkEach validateMutation (fun op => rank op.key) (fun op => .duplicateMutation op.key)
    none c.mutations
  validateReplacements c.mutations none c.prefixReplacements
  if maxRaftLogEntryBytes < conditionalBatchEncodedSize c then .error .entryTooLong
  else (shapes.check c).mapError .shape

namespace ConditionalBatch

/-- The limits on preconditions and mutations. -/
def limits (c : ConditionalBatch) : Nat × Nat :=
  if c.version = chunkTombstoneFencedBatchVersion ∧
      hasInodeAllocationPrecondition c.preconditions then
    (2 + 2 * maxChunkAllocationBatch, 2 + maxChunkAllocationBatch)
  else (maxConditionalPreconditions, maxConditionalMutations)

/-- A replacement with its sets in order. -/
def sortSets (r : ConditionalPrefixReplacement) : ConditionalPrefixReplacement :=
  { r with sets := sortBy (fun s : BatchOp => rank s.key) r.sets }

/-- A batch with everything in the order of the keys. -/
def sorted (c : ConditionalBatch) : ConditionalBatch :=
  { c with
    preconditions := sortBy (fun p => rank p.key) c.preconditions
    mutations := sortBy (fun op => rank op.key) c.mutations
    prefixReplacements := (sortBy (fun r => rank r.keyPrefix) c.prefixReplacements).map sortSets }

end ConditionalBatch

/--
`canonicalConditionalBatch`.  The library's sort may order equal keys in any way; a batch
with equal keys is refused, so only the error it is refused with depends on that.
-/
def canonicalConditionalBatch (shapes : Shapes) (input : ConditionalBatch) :
    Except BatchErr ConditionalBatch :=
  if ¬ supportedVersion input.version then .error (.unsupportedVersion input.version)
  else if input.limits.1 < input.preconditions.length then
    .error (.preconditionCount input.limits.1)
  else if input.limits.2 < input.mutations.length then .error (.mutationCount input.limits.2)
  else if maxConditionalPrefixReplacements < input.prefixReplacements.length then
    .error (.replacementCount maxConditionalPrefixReplacements)
  else do
    validateConditionalBatch shapes input.sorted
    return input.sorted

/-! ### Applying a batch -/

/-- The rows of a database. -/
abbrev Rows := Finmap fun _ : List UInt8 => List UInt8

/-- The errors of the database, by what they hit. -/
structure Faults where
  /-- A read that fails otherwise than by not finding the row. -/
  get : List UInt8 → Option String
  /-- A change that cannot be queued. -/
  queue : List UInt8 → Option String
  /-- A scan of a prefix that cannot be opened, walked, closed, or queued. -/
  scan : List UInt8 → Option String
  /-- The hook in front of the commit. -/
  beforeCommit : Option String
  /-- The commit of a database batch, which then changes nothing. -/
  commit : Option String

/-- A database without faults. -/
def Faults.none : Faults where
  get _ := .none
  queue _ := .none
  scan _ := .none
  beforeCommit := .none
  commit := .none

/-- Why a batch was not applied. -/
inductive ApplyErr
  | refused (err : BatchErr)
  /-- `ErrRaftConditionalConflict`. -/
  | conflict
  | database (message : String)
  deriving DecidableEq, Repr

/-- An error of the database, if there is one. -/
def faulty : Option String → Except ApplyErr Unit
  | some message => .error (.database message)
  | none => .ok ()

/-- One precondition. -/
def checkPrecondition (faults : Faults) (rows : Rows) (p : ConditionalPrecondition) :
    Except ApplyErr Unit := do
  faulty (faults.get p.key)
  match rows.lookup p.key with
  | some current =>
    if p.expectAbsent then .error .conflict
    else if current = p.expectedValue then .ok ()
    else .error .conflict
  | none => if p.expectAbsent then .ok () else .error .conflict

/-- The preconditions, in order. -/
def checkPreconditions (faults : Faults) (rows : Rows) :
    List ConditionalPrecondition → Except ApplyErr Unit
  | [] => .ok ()
  | p :: ps => do
      checkPrecondition faults rows p
      checkPreconditions faults rows ps

/-- A change that is queued in a database batch. -/
inductive Queued
  | op (op : BatchOp)
  /-- The rows a scan found are deleted. -/
  | deleteAll (keys : Finset (List UInt8))

/-- A queued change on the rows. -/
def Queued.apply (rows : Rows) : Queued → Rows
  | op o => if o.delete then rows.erase o.key else rows.insert o.key o.value
  | deleteAll keys => rows.filterKeys fun k => k ∉ keys

/-- Sets and deletes are queued, in order. -/
def queueOps (faults : Faults) : List BatchOp → Except ApplyErr Unit
  | [] => .ok ()
  | op :: ops => do
      faulty (faults.queue op.key)
      queueOps faults ops

/-- The rows a scan of a prefix finds. -/
def scanned (rows : Rows) (keyPrefix : List UInt8) : Finset (List UInt8) :=
  rows.keys.filter fun k => inRange keyPrefix (upperBound keyPrefix) k = true

/-- The replacements are queued: what the scan finds goes, then the sets come. -/
def queueReplacements (faults : Faults) (rows : Rows) :
    List ConditionalPrefixReplacement → Except ApplyErr (List Queued)
  | [] => .ok []
  | r :: rs => do
      faulty (faults.scan r.keyPrefix)
      queueOps faults r.sets
      let rest ← queueReplacements faults rows rs
      return .deleteAll (scanned rows r.keyPrefix) ::
        (r.sets.map fun s => .op { s with delete := false }) ++ rest

/-- All of a batch up to its commit: the changes it has queued. -/
def prepareBatch (shapes : Shapes) (faults : Faults) (rows : Rows) (c : ConditionalBatch) :
    Except ApplyErr (List Queued) := do
  let canonical ← (canonicalConditionalBatch shapes c).mapError .refused
  checkPreconditions faults rows canonical.preconditions
  queueOps faults canonical.mutations
  let replaced ← queueReplacements faults rows canonical.prefixReplacements
  faulty faults.beforeCommit
  faulty faults.commit
  return canonical.mutations.map Queued.op ++ replaced

/-- `applyConditionalBatchWithHook`: the answer, and the rows. -/
def applyConditionalBatch (shapes : Shapes) (faults : Faults) (rows : Rows)
    (c : ConditionalBatch) : Except ApplyErr Unit × Rows :=
  match prepareBatch shapes faults rows c with
  | .error e => (.error e, rows)
  | .ok queued => (.ok (), queued.foldl Queued.apply rows)

end Nufs.Metadata.Pebble
