/-
What a commit makes visible.

Whatever becomes of its file work, a commit leaves the index, the queue and the
caches alone, and changes the overlay in one way only: by publishing all writes of
its batch.  These facts need nothing of the store.
-/
import Nufs.Proofs.Storage.Commit
import Nufs.Storage.Requests

namespace Nufs.Storage

open ByteFile

namespace Store

/-- What is left alone, the overlay included. -/
structure Unseen (s s' : Store) : Prop extends Kept s s' where
  overlay : s'.overlay = s.overlay

theorem Unseen.refl (s : Store) : Unseen s s := ⟨.refl s, rfl⟩

variable {s : Store} {batch : List PendingWrite}

variable {s' : Store} {placed : List PlacedWrite} {fault fault' : Fault}
  {r : Except Err (List PlacedWrite) × Store}

theorem Unseen.trans {s'' : Store} (h : Unseen s s') (h' : Unseen s' s'') : Unseen s s'' :=
  ⟨h.toKept.trans h'.toKept, h'.overlay.trans h.overlay⟩

/-- What a new segment, or the attempt at one, changes of a store. -/
structure Renewed (now : UInt64) (cls : SegmentClass) (s s' : Store) : Prop where
  eq : s' = { s with files := s'.files, nextSeg := s'.nextSeg, alloc := s'.alloc }
  nextSeg : s.nextSeg ≤ s'.nextSeg
  alloc : s'.alloc = s.alloc ∨
    s'.alloc = .new (s.nextSeg + 1) cls s.segmentSize now ∧ s'.nextSeg = s.nextSeg + 1

theorem newActiveSegment_renewed (fault : Fault) (now : UInt64) (cls : SegmentClass) (s : Store) :
    Renewed now cls s (newActiveSegment fault now cls s).2.2 := by
  unfold newActiveSegment
  dsimp only
  split
  · exact ⟨rfl, Nat.le_succ _, .inl rfl⟩
  · exact ⟨rfl, Nat.le_succ _, .inr ⟨rfl, rfl⟩⟩

theorem sealActiveLocked_renewed (fault : Fault) (now : UInt64) (s : Store) :
    Renewed now s.alloc.segmentClass s (sealActiveLocked fault now s).2.2 := by
  unfold sealActiveLocked
  split
  · exact ⟨rfl, Nat.le_refl _, .inl rfl⟩
  split
  · exact ⟨rfl, Nat.le_refl _, .inl rfl⟩
  · split
    · exact ⟨rfl, Nat.le_refl _, .inl rfl⟩
    · obtain ⟨heq, hnext, halloc⟩ := newActiveSegment_renewed _ _ _ _
      exact ⟨heq, hnext, halloc⟩

/-- How a caller makes room: the active segment stays, or it is sealed, which may fail. -/
inductive MadeRoom (fault : Fault) (now : UInt64) (s : Store) : Fault → Store → Prop
  | stays : MadeRoom fault now s fault s
  | sealed {r : Except Err Unit} {fault' : Fault} {s' : Store}
      (h : sealActiveLocked fault now s = (r, fault', s')) : MadeRoom fault now s fault' s'

theorem rotate_madeRoom (fault : Fault) (now : UInt64) (batch : List PendingWrite) (s : Store) :
    MadeRoom fault now s (rotate fault now batch s).2.1 (rotate fault now batch s).2.2 := by
  unfold rotate
  split
  · exact .stays
  · split
    · rename_i hseal
      exact .sealed hseal
    · rename_i hseal
      split <;> exact .sealed hseal

/-- A record gets its place in the segment that has room, or none. -/
theorem reserveOne_cases (fault : Fault) (now : UInt64) (pw : PendingWrite) (s : Store) :
    ∃ fault' s', MadeRoom fault now s fault' s' ∧
      ((∃ e, reserveOne fault now pw s = (.error e, fault', s')) ∨ ∃ off alloc,
          s'.alloc.reserve pw.framing pw.header.extentID pw.header.storedLen = .ok (off, alloc) ∧
          reserveOne fault now pw s = (.ok off, fault', { s' with alloc })) := by
  unfold reserveOne
  split
  · rename_i off alloc hres
    exact ⟨fault, s, .stays, .inr ⟨off, alloc, hres, rfl⟩⟩
  · split
    · rename_i e fault' s' hseal
      exact ⟨fault', s', .sealed hseal, .inl ⟨e, rfl⟩⟩
    · rename_i fault' s' hseal
      refine ⟨fault', s', .sealed hseal, ?_⟩
      split
      · rename_i off alloc hres
        exact .inr ⟨off, alloc, hres, rfl⟩
      · rename_i e _
        exact .inl ⟨e, rfl⟩
  · rename_i e _ _
    exact ⟨fault, s, .stays, .inl ⟨e, rfl⟩⟩

theorem MadeRoom.renewed {now : UInt64} (h : MadeRoom fault now s fault' s') :
    Renewed now s.alloc.segmentClass s s' := by
  cases h with
  | stays => exact ⟨rfl, Nat.le_refl _, .inl rfl⟩
  | sealed hseal =>
    have hrenewed := sealActiveLocked_renewed fault now s
    rwa [hseal] at hrenewed

theorem MadeRoom.unseen {now : UInt64} (h : MadeRoom fault now s fault' s') : Unseen s s' := by
  rw [h.renewed.eq]
  exact ⟨⟨rfl, rfl, rfl, rfl, rfl, rfl⟩, rfl⟩

theorem reserveRecords_unseen (batch : List PendingWrite) (s : Store) :
    Unseen s (reserveRecords batch s).2 := by
  induction batch generalizing s with
  | nil => exact .refl s
  | cons pw batch ih =>
    unfold reserveRecords
    split
    · exact .refl s
    · rename_i offset alloc _
      have hstep : Unseen s { s with alloc, streamSeq := s.streamSeq + 1 } :=
        ⟨⟨rfl, rfl, rfl, rfl, rfl, rfl⟩, rfl⟩
      have hrest := hstep.trans (ih { s with alloc, streamSeq := s.streamSeq + 1 })
      split <;> rename_i heq <;> rwa [heq] at hrest

/-- The writes of a reserved batch are those of the batch, in order. -/
theorem reserveRecords_placed (h : reserveRecords batch s = (.ok placed, s')) :
    placed.map PlacedWrite.toPendingWrite = batch := by
  induction batch generalizing s s' placed with
  | nil =>
    obtain ⟨rfl, -⟩ : [] = placed ∧ s = s' := by simpa [reserveRecords] using h
    rfl
  | cons pw batch ih =>
    unfold reserveRecords at h
    split at h
    · simp at h
    dsimp only at h
    split at h
    · simp at h
    · rename_i rest _ heq
      obtain ⟨rfl, -⟩ : _ = placed ∧ _ = s' := by simpa using h
      rw [List.map_cons, ih heq]

/-- The overlay behind a commit, and what the call returned. -/
inductive Commits (fault : Fault) (batch : List PendingWrite) (s : Store) :
    Except Err (List PlacedWrite) × Store → Prop
  | unpublished {e : Err} {s' : Store} (h : Unseen s s') : Commits fault batch s (.error e, s')
  | failed {e : Err} {s' : Store} {placed : List PlacedWrite} (hfault : fault ≠ none)
      (h : Kept s s') (hplaced : placed.map PlacedWrite.toPendingWrite = batch)
      (hoverlay : s'.overlay = putPlaced s.overlay placed) : Commits fault batch s (.error e, s')
  | committed {s' : Store} {placed : List PlacedWrite} (h : Kept s s')
      (hplaced : placed.map PlacedWrite.toPendingWrite = batch)
      (hoverlay : s'.overlay = putPlaced s.overlay placed) : Commits fault batch s (.ok placed, s')

theorem Commits.of_unseen {s1 : Store} (h : Unseen s s1) (hfault : fault = none → fault' = none)
    (hr : Commits fault' batch s1 r) : Commits fault batch s r := by
  cases hr with
  | unpublished h' => exact .unpublished (h.trans h')
  | failed hsome h' hplaced hoverlay =>
    exact .failed (fun hnone => hsome (hfault hnone)) (h.toKept.trans h') hplaced
      (h.overlay ▸ hoverlay)
  | committed h' hplaced hoverlay =>
    exact .committed (h.toKept.trans h') hplaced (h.overlay ▸ hoverlay)

theorem publishBatch_commits (fault : Fault)
    (hplaced : placed.map PlacedWrite.toPendingWrite = batch) (s : Store) :
    Commits fault batch s (publishBatch fault placed s) := by
  rcases publishBatch_cases fault placed s with ⟨e, h, -⟩ | ⟨e, h, hfault⟩ | h
  · rw [h]
    exact .unpublished ⟨⟨rfl, rfl, rfl, rfl, rfl, rfl⟩, rfl⟩
  · rw [h]
    exact .failed hfault ⟨rfl, rfl, rfl, rfl, rfl, rfl⟩ hplaced rfl
  · rw [h, publishRecoveryBatch_eq]
    exact .committed ⟨rfl, rfl, rfl, rfl, rfl, rfl⟩ hplaced rfl

theorem appendBatch_commits (fault : Fault) (batch : List PendingWrite) (s : Store) :
    Commits fault batch s (appendBatch fault batch s) := by
  have hres := reserveRecords_unseen batch s
  unfold appendBatch
  split
  · rename_i heq
    rw [heq] at hres
    exact .unpublished hres
  rename_i placed s1 heq
  rw [heq] at hres
  have hplaced := reserveRecords_placed heq
  split
  · exact .unpublished hres
  rename_i commitOffset alloc _
  dsimp only
  split
  · exact .unpublished (hres.trans ⟨⟨rfl, rfl, rfl, rfl, rfl, rfl⟩, rfl⟩)
  · rename_i files hrun
    have hfiles : Unseen s1 { s1 with alloc, files } := ⟨⟨rfl, rfl, rfl, rfl, rfl, rfl⟩, rfl⟩
    refine .of_unseen (hres.trans hfiles) ?_ (publishBatch_commits _ hplaced _)
    rintro rfl
    exact runOps_fault_none hrun

variable (now : UInt64)

theorem newActiveSegment_fault_none (cls : SegmentClass) (s : Store) :
    (newActiveSegment none now cls s).2.1 = none := by
  unfold newActiveSegment
  dsimp only
  split <;> rename_i hrun <;> exact runOps_fault_none hrun

theorem sealActiveLocked_fault_none (s : Store) : (sealActiveLocked none now s).2.1 = none := by
  unfold sealActiveLocked
  split
  · rfl
  split
  · rfl
  · split <;> rename_i hrun
    · exact runOps_fault_none hrun
    · rw [runOps_fault_none hrun]
      exact newActiveSegment_fault_none _ _ _

theorem MadeRoom.fault_none (h : MadeRoom none now s fault' s') : fault' = none := by
  cases h with
  | stays => rfl
  | sealed hseal =>
    have hnone := sealActiveLocked_fault_none now s
    rwa [hseal] at hnone

/-- **What a commit makes visible**, whatever happens to the files. -/
theorem commitBatch_commits (fault : Fault) (now : UInt64) (batch : List PendingWrite) (s : Store) :
    Commits fault batch s (commitBatch fault now batch s) := by
  have hrot := rotate_madeRoom fault now batch s
  unfold commitBatch
  split
  · rename_i heq
    rw [heq] at hrot
    exact .unpublished hrot.unseen
  · rename_i fault' s1 heq
    rw [heq] at hrot
    refine .of_unseen hrot.unseen ?_ (appendBatch_commits fault' batch s1)
    rintro rfl
    exact hrot.fault_none

theorem Commits.kept (h : Commits fault batch s r) : Kept s r.2 := by
  cases h with
  | unpublished h => exact h.toKept
  | failed _ h _ _ | committed h _ _ => exact h

end Store

end Nufs.Storage
