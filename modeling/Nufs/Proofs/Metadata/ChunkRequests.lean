/-
What calls on chunks ask the store for.

A call may read what it likes; the log entries it proposes are of a few kinds.  They are
listed here once, with what the call knows of the values in them, and every call is shown
to propose no others.
-/
import Nufs.Metadata.ChunkTombstone
import Nufs.Proofs.Metadata.Replay

namespace Nufs.Chunks

open Nufs.Metadata Interleave

variable {V : Type} {codec : ChunkCodec V} {α β : Type} {mayPurge : Prop}

/-! ### Actions that make certain requests only -/

/-- Every request of the action has the property. -/
def Action.Only (P : Request V → Prop) (m : Action V α) : Prop := Prog.Only P m

namespace Action

variable {P : Request V → Prop}

theorem Only.pure (a : α) : Only P (pure a : Action V α) := trivial

theorem Only.fail (e : ChunkErr) : Only P (fail e : Action V α) := trivial

theorem Only.lift (r : Except ChunkErr α) : Only P (lift r : Action V α) := trivial

theorem Only.bind {m : Action V α} {f : α → Action V β} (hm : m.Only P) (hf : ∀ a, (f a).Only P) :
    (m >>= f).Only P := by
  refine Prog.Only.bind hm ?_
  intro r
  cases r with
  | error e => exact trivial
  | ok a => exact hf a

theorem Only.attempt {m : Action V α} (hm : m.Only P) : m.attempt.Only P :=
  Prog.Only.bind hm fun _ => trivial

theorem Only.get {key : Key} (h : P (.get key)) : Only P (get key) := ⟨h, fun _ => trivial⟩

theorem Only.scan (h : P .scan) : Only P (scan : Action V (Rows V)) := ⟨h, fun _ => trivial⟩

theorem Only.propose {log : RaftLog V} (h : P (.propose log)) : Only P (propose log) :=
  ⟨h, fun _ => trivial⟩

theorem Only.applyConditional {term : UInt64} {c : ConditionalBatch V}
    (h : P (.propose ⟨term, some (.conditional c)⟩)) : Only P (applyConditional term c) := by
  refine .bind (.attempt (.propose h)) ?_
  intro r
  split
  · exact .fail _
  · exact .lift _

theorem Only.ite {p : Prop} [Decidable p] {m m' : Action V α} (hm : m.Only P)
    (hm' : m'.Only P) : Only P (if p then m else m') := by
  split_ifs
  · exact hm
  · exact hm'

end Action

/-! ### The entries -/

/-- The entries that calls propose; those that purge only if the call may. -/
inductive Proposed (codec : ChunkCodec V) (mayPurge : Prop) : RaftLogEntry V → Prop
  | update (raw : V) (chunk : ChunkMeta) :
      Proposed codec mayPurge (.conditional (updateBatch codec raw chunk))
  | degrade (id : ChunkID) (value : V) : Proposed codec mayPurge (.set (.extentMeta id) value)
  | allocate {id : InodeID} {raw : V} {refs : List ChunkRef} (allotted : List Allotted)
      (h : codec.inode raw = some (id, refs)) :
      Proposed codec mayPurge (.conditional (allocationBatch codec id raw allotted))
  | tombstone (references : InodeReferenceSnapshot V) {raw : V} {chunk : ChunkMeta}
      (reason : List Char) (now : Time) (h : codec.chunk raw = some chunk) :
      Proposed codec mayPurge
        (.conditional (tombstoneBatch codec references chunk.id raw (chunk.tombstone reason now)))
  | purge (references : InodeReferenceSnapshot V) (id : ChunkID)
      (catalogRaw chunkRaw tombstoneRaw : V) (h : mayPurge) :
      Proposed codec mayPurge
        (.conditional (purgeBatch references id catalogRaw chunkRaw tombstoneRaw))
  | catalog (state : BackupCatalogState) (expectedRaftTerm : UInt64) :
      Proposed codec mayPurge (.conditional (catalogBatch codec state expectedRaftTerm))
  | apply {entry : RaftLogEntry V} {keys : List Key} (h : publicKeys entry = some keys)
      (hkeys : ∀ k ∈ keys, isPublicRaftProtectedKey k = false) : Proposed codec mayPurge entry

/-- A request that reads, or proposes one of these entries. -/
def Known (codec : ChunkCodec V) (mayPurge : Prop) : Request V → Prop
  | .get _ => True
  | .scan => True
  | .propose log => ∃ entry, log.entry = some entry ∧ Proposed codec mayPurge entry

theorem known_get (key : Key) : (Action.get key).Only (Known codec mayPurge) := .get trivial

/-- A row is read, and what follows may depend on whether it is there. -/
theorem known_read {key : Key} {f : Option V → Action V α}
    (hnone : (f none).Only (Known codec mayPurge))
    (hsome : ∀ raw, (f (some raw)).Only (Known codec mayPurge)) :
    (Action.get key >>= f).Only (Known codec mayPurge) := by
  refine .bind (known_get _) fun raw => ?_
  cases raw with
  | none => exact hnone
  | some raw => exact hsome raw

theorem known_scan : (Action.scan : Action V (Rows V)).Only (Known codec mayPurge) := .scan trivial

theorem known_conditional {term : UInt64} {c : ConditionalBatch V}
    (h : Proposed codec mayPurge (.conditional c)) :
    (Action.applyConditional term c).Only (Known codec mayPurge) :=
  .applyConditional ⟨_, rfl, h⟩

/-! ### What each call proposes -/

variable (term : UInt64)

theorem known_updateLive (raw : V) (chunk : ChunkMeta) :
    (updateLiveChunkMetadata codec term raw chunk).Only (Known codec mayPurge) :=
  .ite (.fail _) (known_conditional (Proposed.update raw chunk))

variable (id : ChunkID) (reason : List Char) (now : Time) (references : InodeReferenceSnapshot V)

theorem known_getChunkRaw : (getChunkRaw codec id).Only (Known codec mayPurge) := by
  refine known_read (.fail _) fun raw => ?_
  simp only []
  split
  · exact .fail _
  · exact .pure _

theorem known_commitChunk (checksum : UInt32) :
    (commitChunk codec term id checksum).Only (Known codec mayPurge) := by
  refine .bind (known_getChunkRaw id) ?_
  intro row
  exact .ite (known_updateLive term _ _) (.fail _)

theorem known_sealChunk : (sealChunk codec term id).Only (Known codec mayPurge) := by
  refine .bind (known_getChunkRaw id) ?_
  intro row
  refine .ite (.pure _) ?_
  exact .ite (known_updateLive term _ _) (.fail _)

theorem known_updateChunk (chunk : ChunkMeta) :
    (updateChunk codec term chunk).Only (Known codec mayPurge) :=
  known_read (.fail _) fun _ => known_updateLive term _ _

theorem known_migrateChunkReplica (fromNode toNode : NodeID) (toAddr : List Char) :
    (migrateChunkReplica codec term id fromNode toNode toAddr).Only (Known codec mayPurge) := by
  refine .bind (known_getChunkRaw id) ?_
  intro row
  exact .ite (.fail _) (known_updateChunk term _)

theorem known_markExtentDegraded :
    (markExtentDegraded codec term id).Only (Known codec mayPurge) := by
  refine known_read (.pure _) fun raw => ?_
  simp only []
  split
  · exact .fail _
  · exact .pure _
  · exact .propose ⟨_, rfl, .degrade id _⟩

theorem known_updateChunkState (rows : Rows V) (nodeID : NodeID) (id : ChunkID)
    (state : ReplicaState) :
    (updateChunkState codec term rows nodeID id state).Only (Known codec mayPurge) := by
  unfold updateChunkState
  split
  · exact .pure _
  refine .bind (.attempt (known_updateLive term _ _)) ?_
  intro r
  split
  · exact .pure _
  · exact .fail _
  · exact .ite (known_markExtentDegraded term id) (.pure _)

theorem known_updateChunkStates (rows : Rows V) (nodeID : NodeID)
    (states : List (ChunkID × ReplicaState)) :
    (updateChunkStates codec term rows nodeID states).Only (Known codec mayPurge) := by
  induction states with
  | nil => exact .pure _
  | cons s states ih =>
    exact .bind (known_updateChunkState term rows nodeID s.1 s.2) fun _ => ih

theorem known_reportChunkState (nodeID : NodeID) (states : List (ChunkID × ReplicaState)) :
    (reportChunkState codec term nodeID states).Only (Known codec mayPurge) := by
  refine .ite (.pure _) (.bind known_scan ?_)
  intro rows
  exact known_updateChunkStates term rows nodeID states

theorem known_allocate (id : InodeID) (offsets : List Int) (attempts : List Placement) :
    (allocateChunksConditionally codec term id offsets attempts).Only (Known codec mayPurge) := by
  induction attempts with
  | nil => exact .fail _
  | cons placement attempts ih =>
    refine known_read (.fail _) fun raw => ?_
    simp only []
    split
    · exact .fail _
    rename_i inode hinode
    split_ifs with hid
    · exact .fail _
    rw [not_not] at hid
    subst hid
    split
    · exact ih
    · exact .fail _
    rename_i allotted _
    refine .bind known_scan ?_
    intro rows
    split
    · exact .fail _
    refine .bind (.attempt (known_conditional (Proposed.allocate allotted hinode))) ?_
    intro r
    split
    · exact ih
    · exact .lift _

theorem known_applyEntry (entry : RaftLogEntry V) :
    (applyEntry term entry).Only (Known codec mayPurge) := by
  unfold applyEntry
  split
  · exact .fail _
  rename_i keys hkeys
  split_ifs with h
  · exact .fail _
  · refine .propose ⟨entry, rfl, .apply hkeys ?_⟩
    intro k hk
    rw [Bool.not_eq_true, List.any_eq_false] at h
    simpa using h k hk

theorem known_replaceCatalog (backups : List CommittedBackup) (reconciledAt : Time)
    (expectedRaftTerm : UInt64) :
    (replaceCommittedBackupCatalog codec term backups reconciledAt expectedRaftTerm).Only
      (Known codec mayPurge) := by
  refine .bind (.lift _) ?_
  intro state
  exact known_conditional (.catalog state expectedRaftTerm)

theorem known_readEpoch : (readInodeReferenceEpochRaw codec).Only (Known codec mayPurge) :=
  known_read (.pure _) fun _ => .ite (.pure _) (.fail _)

theorem known_getCatalog : (getBackupCatalogState codec).Only (Known codec mayPurge) := by
  refine known_read (.pure _) fun raw => ?_
  simp only []
  split
  · exact .fail _
  · refine .bind (.lift _) fun normalized => ?_
    refine .ite (.fail _) ?_
    refine .bind known_scan fun rows => ?_
    exact .ite (.pure _) (.fail _)

variable [DecidableEq V]

theorem known_stableSnapshot (attempts : Nat) :
    (stableInodeReferenceSnapshot codec attempts).Only (Known codec mayPurge) := by
  induction attempts with
  | zero => exact .fail _
  | succ attempts ih =>
    refine .bind known_readEpoch fun before => ?_
    refine .bind known_scan fun rows => ?_
    refine .bind (.lift _) fun references => ?_
    refine .bind known_readEpoch fun after => ?_
    exact .ite (.pure _) ih

theorem known_reconcileTombstone : (reconcileTombstone codec id).Only (Known codec mayPurge) := by
  refine known_read (.fail _) fun latest => ?_
  refine .bind (known_get _) fun chunk => ?_
  exact .bind (.lift _) fun _ => .pure _

theorem known_tombstone : (tombstoneChunkWithReferences codec term id reason now references).Only
      (Known codec mayPurge) := by
  refine .ite (.fail _) ?_
  refine .bind (known_get _) fun chunkRaw => ?_
  refine .bind (known_get _) fun tombstoneRaw => ?_
  refine .ite ?_ (.ite (.pure _) ?_)
  · refine .bind (.lift _) fun _ => ?_
    exact .ite (.fail _) (.pure _)
  cases chunkRaw with
  | none => exact .pure _
  | some raw =>
    simp only []
    split
    · exact .fail _
    rename_i chunk hchunk
    by_cases hid : chunk.id ≠ id
    · rw [if_pos hid]
      exact .fail _
    rw [if_neg hid]
    rw [not_not] at hid
    subst hid
    refine .ite (.fail _) ?_
    refine .bind (.attempt (known_conditional (Proposed.tombstone references reason now hchunk))) ?_
    intro r
    split
    · exact known_reconcileTombstone _
    · exact .fail _
    · exact .pure _

theorem known_collectOrphan :
    (collectOrphan codec term id reason now references).Only (Known codec mayPurge) :=
  .bind (known_tombstone term id reason now references) fun _ => .pure _

theorem known_tombstoneChunk :
    (tombstoneChunk codec term id reason now).Only (Known codec mayPurge) :=
  .bind (known_stableSnapshot 3) fun references =>
    known_collectOrphan term id reason now references

theorem known_captureAttempts (t : ChunkTombstone) (now : Time) (attempts : Nat) :
    (captureAttempts codec t now attempts).Only (Known codec mayPurge) := by
  induction attempts with
  | zero => exact .fail _
  | succ attempts ih =>
    refine known_read (.fail _) fun raw => ?_
    refine .bind (.lift _) fun _ => ?_
    refine .bind known_getCatalog fun catalog => ?_
    refine .bind (.lift _) fun eligible => ?_
    refine .ite (.fail _) ?_
    refine .bind (known_get _) fun latest => ?_
    exact .ite (.pure _) ih

theorem known_capture (t : ChunkTombstone) (now : Time) :
    (capturePurgeCatalog codec t now).Only (Known codec mayPurge) := by
  refine .bind (.lift _) fun _ => ?_
  refine .ite (.fail _) (.ite (.fail _) ?_)
  exact known_captureAttempts t now 3

theorem known_reconcilePurge : (reconcilePurge codec id).Only (Known codec mayPurge) := by
  refine .bind (known_get _) fun latestChunk => ?_
  refine .bind (known_get _) fun latestTombstone => ?_
  refine .ite (.pure _) ?_
  exact .bind (.lift _) fun _ => .fail _

theorem known_purgeIfEligible (hmay : mayPurge) :
    (purgeChunkIfEligible codec term id now references).Only (Known codec mayPurge) := by
  refine .ite (.fail _) ?_
  refine .bind (known_get _) fun chunkRaw => ?_
  refine .bind (known_get _) fun tombstoneRaw => ?_
  split
  · exact .pure _
  · refine .bind (.lift _) fun tombstone => ?_
    refine .bind (known_capture tombstone now) fun catalogRaw => ?_
    refine .bind (.attempt (known_conditional
      (Proposed.purge references id catalogRaw _ _ hmay))) ?_
    intro r
    split
    · exact known_reconcilePurge id
    · exact .lift _
  · exact .fail _

/-- The call purges the chunk, and this is the time it has for now. -/
def Operation.Purges (id : ChunkID) (now : Time) : Operation V → Prop
  | .purgeChunk id' now' => id' = id ∧ now' = now
  | .purgeChunkIfEligible id' now' _ => id' = id ∧ now' = now
  | _ => False

/-- **Every call proposes the listed entries only**, and purges only if it is a purge. -/
theorem known_action (call : Call V) (hmay : ∀ id now, call.op.Purges id now → mayPurge) :
    (call.action codec).Only (Known codec mayPurge) := by
  obtain ⟨term, op⟩ := call
  cases op with
  | commitChunk id checksum => exact known_commitChunk term id checksum
  | sealChunk id => exact known_sealChunk term id
  | updateChunk chunk => exact known_updateChunk term chunk
  | migrateChunkReplica id fromNode toNode toAddr =>
    exact known_migrateChunkReplica term id fromNode toNode toAddr
  | reportChunkState nodeID states => exact known_reportChunkState term nodeID states
  | allocateChunksBatch id offsets attempts =>
    refine .ite (.pure _) (.ite (.fail _) ?_)
    exact known_allocate term id offsets _
  | tombstoneChunk id reason now => exact known_tombstoneChunk term id reason now
  | collectOrphan id reason now references =>
    exact known_collectOrphan term id reason now references
  | purgeChunk id now =>
    refine .bind (known_stableSnapshot 3) fun references => ?_
    exact known_purgeIfEligible term id now references (hmay id now ⟨rfl, rfl⟩)
  | purgeChunkIfEligible id now references =>
    exact known_purgeIfEligible term id now references (hmay id now ⟨rfl, rfl⟩)
  | replaceCommittedBackupCatalog backups reconciledAt expectedRaftTerm =>
    exact known_replaceCatalog term backups reconciledAt expectedRaftTerm
  | apply entry => exact known_applyEntry term entry

end Nufs.Chunks
