/-
Room for the checkpoint.

A batch is taken if it fits the segment together with its commit.  Nothing stays free for
the marker of the flush that follows: the flush asks for the room of a batch commit, takes
the larger room of a commit record, and fails where even the smaller one is missing.  If
every batch leaves room for a marker, the tail stays within the segment and every flush
finds its place.
-/
import Nufs.Proofs.Storage.Checkpoints

namespace Nufs.Storage

namespace MarkerRoom

open ByteFile Store

/-- What is asked of a store, one request after the other. -/
inductive Request
  | commitBatch (now : UInt64) (batch : List PendingWrite)
  | appendRecord (now : UInt64) (pw : PendingWrite)
  | flush

def step (s : Store) : Request → Option Store
  | .commitBatch now batch => some (s.commitBatch none now batch).2
  | .appendRecord now pw => some (s.appendRecord none now pw).2
  | .flush => some s.flush.2

/-- A batch whose records fit leaves room for its commit and a marker, and so it does in an
empty segment. -/
def LeavesRoom (a : Allocator) (batch : List PendingWrite) : Prop :=
  segmentHeaderSize + required batch + commitRecordSize ≤ a.maxSegmentBytes ∧
    (a.offset + required batch ≤ a.maxSegmentBytes + batchCommitSize →
      a.offset + required batch + commitRecordSize ≤ a.maxSegmentBytes)

/-- Batches leave room for a marker; a flush that writes one has a sequence to name in it. -/
def KeepsRoom (s : Store) : Request → Prop
  | .commitBatch _ batch => LeavesRoom s.alloc batch
  | .appendRecord _ pw => LeavesRoom s.alloc [pw]
  | .flush => s.overlay.drained ≠ [] → s.flushSeq ≠ 0

/-- **The invariant.**  There is room for a marker, unless there is nothing to flush. -/
structure Roomy (s : Store) : Prop where
  size : s.alloc.maxSegmentBytes = s.segmentSize
  active : s.alloc.segmentID ≠ 0
  header : segmentHeaderSize ≤ s.alloc.offset
  room : s.alloc.offset + commitRecordSize ≤ s.alloc.maxSegmentBytes ∨
    s.overlay.drained = [] ∧ s.alloc.offset ≤ s.alloc.maxSegmentBytes

variable {s s' : Store} {batch : List PendingWrite} {fault fault' : Fault} {now : UInt64}

theorem Roomy.tail_le (h : Roomy s) : s.alloc.offset ≤ s.alloc.maxSegmentBytes := by
  rcases h.room with hroom | ⟨-, hle⟩ <;> omega

/-! ### Batches -/

/-- A new segment takes the batch as the old one would. -/
theorem Roomy.madeRoom (h : Roomy s) (hleaves : LeavesRoom s.alloc batch)
    (hroom : MadeRoom fault now s fault' s') : Roomy s' ∧ LeavesRoom s'.alloc batch := by
  have hunseen := hroom.unseen
  have hsize : s.alloc.maxSegmentBytes = s'.segmentSize := h.size.trans hunseen.segmentSize.symm
  rcases hroom.renewed.alloc with halloc | ⟨halloc, -⟩
  · refine ⟨⟨?_, ?_, ?_, ?_⟩, halloc ▸ hleaves⟩
    · rw [halloc, hsize]
    · exact halloc ▸ h.active
    · exact halloc ▸ h.header
    · rw [halloc, hunseen.overlay]
      exact h.room
  have hmax : s'.alloc.maxSegmentBytes = s.alloc.maxSegmentBytes := by
    have hpos : s.segmentSize ≠ 0 := by
      rw [← h.size]
      have := hleaves.1
      simp only [segmentHeaderSize] at this
      omega
    rw [halloc, h.size]
    exact if_neg hpos
  have hoff : s'.alloc.offset = segmentHeaderSize := by rw [halloc, Allocator.new]
  have hempty := hleaves.1
  refine ⟨⟨hmax.trans hsize, ?_, hoff.ge, .inl ?_⟩, ?_, fun _ => ?_⟩
  · rw [halloc]
    exact Nat.succ_ne_zero _
  · rw [hmax, hoff]
    omega
  · rwa [hmax]
  · rwa [hmax, hoff]

/-- A batch behind the tail leaves room for a marker. -/
theorem Roomy.advanced {n : Nat} (h : Roomy s) (hleaves : LeavesRoom s.alloc batch)
    (hfits : s.alloc.offset + required batch ≤ s.alloc.maxSegmentBytes + batchCommitSize)
    (hadv : Advanced s.alloc s'.alloc (required batch) n)
    (hsize : s'.segmentSize = s.segmentSize) : Roomy s' := by
  have hheader := h.header
  refine ⟨?_, ?_, ?_, .inl ?_⟩
  · rw [hadv.maxSegmentBytes, h.size, hsize]
  · rw [hadv.segmentID]
    exact h.active
  · rw [hadv.offset]
    omega
  · rw [hadv.maxSegmentBytes, hadv.offset]
    exact hleaves.2 hfits

theorem recordCommit_advanced {a a' : Allocator} {bytes n : Nat} (h : Advanced a a' bytes n)
    (seq : UInt64) : Advanced a (a'.recordCommit seq) bytes n :=
  ⟨h.offset, h.recordCount, h.segmentID, h.segmentClass, h.maxSegmentBytes, h.maxRecords⟩

theorem appendBatch_advanced (fault : Fault) (hfits : fits s.alloc batch = true) :
    Advanced s.alloc (appendBatch fault batch s).2.alloc (required batch) batch.length := by
  obtain ⟨alloc, hadv, happ⟩ := appendBatch_eq fault hfits
  dsimp only at happ
  rw [happ]
  split
  · exact hadv
  · rw [(publishBatch_alloc _ _ _).1]
    exact recordCommit_advanced hadv _

theorem Roomy.commitBatch (h : Roomy s) (hleaves : LeavesRoom s.alloc batch) :
    Roomy (s.commitBatch none now batch).2 := by
  have hroom := rotate_madeRoom none now batch s
  have hkept := (commitBatch_commits none now batch s).kept
  unfold Store.commitBatch at hkept ⊢
  split
  · rename_i heq
    rw [heq] at hroom
    exact (h.madeRoom hleaves hroom).1
  rename_i fault s1 heq
  rw [heq] at hroom hkept
  have hfits := rotate_fits heq
  obtain ⟨h1, hleaves1⟩ := h.madeRoom hleaves hroom
  exact h1.advanced hleaves1 (Nat.le_add_right_of_le (fits_iff.mp hfits).1)
    (appendBatch_advanced fault hfits) (hkept.segmentSize.trans hroom.unseen.segmentSize.symm)

theorem Roomy.appendRecord {pw : PendingWrite} (h : Roomy s) (hleaves : LeavesRoom s.alloc [pw]) :
    Roomy (s.appendRecord none now pw).2 := by
  obtain ⟨fault, s1, hroom, ⟨e, heq⟩ | ⟨off, alloc, hres, heq⟩⟩ := reserveOne_cases none now pw s
  · rw [Store.appendRecord, heq]
    exact (h.madeRoom hleaves hroom).1
  obtain ⟨h1, hleaves1⟩ := h.madeRoom hleaves hroom
  obtain ⟨-, hfits, hadv⟩ := reserve_eq_ok hres
  have hrequired : required [pw] = batchCommitSize + pw.framing.toNat := by
    simp [required]
  have hleft := hleaves1.2 (by omega)
  -- The guard leaves room for the commit of a record that was reserved.
  have hcommit : ¬ alloc.maxSegmentBytes < alloc.offset + batchCommitSize := by
    rw [hadv.maxSegmentBytes, hadv.offset]
    omega
  have hend : Advanced s1.alloc { alloc with offset := alloc.offset + batchCommitSize }
      (required [pw]) 1 := by
    refine ⟨?_, hadv.recordCount, hadv.segmentID, hadv.segmentClass, hadv.maxSegmentBytes,
      hadv.maxRecords⟩
    simp only [hadv.offset]
    omega
  rw [Store.appendRecord, heq]
  simp only [Allocator.reserveCommit, if_neg hcommit]
  split
  · exact h1.advanced hleaves1 (by omega) hend rfl
  dsimp only
  rw [publishRecoveryBatch_eq]
  unfold enqueueApply
  split
  · exact h1.advanced hleaves1 (by omega) (recordCommit_advanced hend _) rfl
  · exact h1.advanced hleaves1 (by omega) (recordCommit_advanced hend _) rfl

/-! ### The flush -/

theorem Roomy.flush (h : Roomy s) (hseq : s.overlay.drained ≠ [] → s.flushSeq ≠ 0) :
    Roomy s.flush.2 := by
  by_cases hne : s.overlay.drained = []
  · have hflush : s.flush = (.ok (), { s with overlay := s.overlay.drain }) := by
      simp only [Store.flush, flushDrain, if_pos hne]
    rw [hflush]
    exact ⟨h.size, h.active, h.header, .inr ⟨rfl, h.tail_le⟩⟩
  have hroom := h.room.resolve_right fun hr => hne hr.1
  rw [flush_eq hne (by simp only [batchCommitSize, commitRecordSize] at hroom ⊢; omega) h.active
    h.header (hseq hne)]
  exact ⟨h.size, h.active, Nat.le_add_right_of_le h.header, .inr ⟨rfl, hroom⟩⟩

theorem Roomy.flush_ne (h : Roomy s) : s.flush.1 ≠ .error .segmentFull := by
  by_cases hne : s.overlay.drained = []
  · simp [Store.flush, flushDrain, if_pos hne]
  have hroom := h.room.resolve_right fun hr => hne hr.1
  have htail : s.alloc.currentTail = .ok s.alloc.offset :=
    if_neg (by simp only [batchCommitSize, commitRecordSize] at hroom ⊢; omega)
  simp only [Store.flush, flushDrain, if_neg hne, writeIndexSafeLocked, applyNow, htail,
    runOps_none, storeRecoveryCheckpoint]
  split_ifs <;> simp

theorem Roomy.step {r : Request} (h : Roomy s) (hkeeps : KeepsRoom s r)
    (hstep : step s r = some s') : Roomy s' := by
  cases r with
  | commitBatch now batch =>
    obtain rfl := Option.some.inj hstep
    exact h.commitBatch hkeeps
  | appendRecord now pw =>
    obtain rfl := Option.some.inj hstep
    exact h.appendRecord hkeeps
  | flush =>
    obtain rfl := Option.some.inj hstep
    exact h.flush hkeeps

/--
**When a checkpoint fits.**  If every batch leaves room for a marker, then in every state that
is reached the tail is within the segment, and a flush does not fail for want of room.
-/
theorem checkpoint_fits (requests : List Request) (hs : Roomy s)
    (hmeets : Guarded.Meets step KeepsRoom requests s)
    (hrun : Guarded.run step requests s = some s') :
    s'.alloc.offset ≤ s'.alloc.maxSegmentBytes ∧ s'.flush.1 ≠ .error .segmentFull := by
  have h : Roomy s' :=
    Guarded.run_invariant (fun _ _ _ h hkeeps hstep => h.step hkeeps hstep) hs hmeets hrun
  exact ⟨h.tail_le, h.flush_ne⟩

/-- A store on an empty disk, with segments of the given size. -/
def emptyStore (size : Nat) : Store :=
  (newActiveSegment none 0 .data (.opening 1 size ∅ ∅ none)).2.2

/-- The record of a delete. -/
def deletion : PendingWrite := deletePending (7, 1) ⟨1, 22, 0, 0, .durable, 0⟩

/-- A delete and its flush, in a segment that has just enough room. -/
theorem checkpoint_fits_deletion :
    ∃ s', Guarded.run step [.commitBatch 0 [deletion], .flush] (emptyStore 204) = some s' ∧
      s'.alloc.offset ≤ s'.alloc.maxSegmentBytes ∧ s'.flush.1 ≠ .error .segmentFull := by
  have hstart : Roomy (emptyStore 204) :=
    ⟨by decide +kernel, by decide +kernel, by decide +kernel, .inr (by decide +kernel)⟩
  have hleaves : LeavesRoom (emptyStore 204).alloc [deletion] :=
    ⟨by decide +kernel, fun _ => by decide +kernel⟩
  have hmeets : Guarded.Meets step KeepsRoom [.commitBatch 0 [deletion], .flush]
      (emptyStore 204) := by
    refine ⟨hleaves, fun s hs => ⟨fun _ => ?_, fun _ _ => trivial⟩⟩
    obtain rfl := Option.some.inj hs
    decide +kernel
  exact ⟨_, rfl, checkpoint_fits _ hstart hmeets rfl⟩

/-- The delete is taken; its marker has no room, or goes beyond the end of the segment. -/
theorem checkpoint_does_not_fit :
    (((emptyStore 150).commitBatch none 0 [deletion]).1.toOption.isSome ∧
      ((emptyStore 150).commitBatch none 0 [deletion]).2.flush.1 = .error .segmentFull) ∧
    ((emptyStore 180).commitBatch none 0 [deletion]).2.flush.2.alloc.offset = 204 := by
  decide +kernel

end MarkerRoom

end Nufs.Storage
