/-
The watermark of a flush.

A commit takes the sequences of its records before it writes anything, and publishes
its batch under the sequence that stood before them.  The watermark moves through
batches that follow each other without a gap.  A commit whose file work fails leaves
such a gap: what is published behind it stays in the overlay, and is neither counted
nor flushed.  As long as no file operation fails behind a reservation, the watermark is
the sequence of the last published batch, and everything unflushed is counted.
-/
import Nufs.Proofs.Storage.MarkerRoom

namespace Nufs.Storage

namespace Watermark

open ByteFile Store

/-- A store, the sequence of the last BatchCommit published to its overlay, and the number of
mutations published since the last flush that succeeded. -/
structure Watched where
  store : Store
  last : UInt64
  unflushed : Nat

/-- What is asked of a store, with the file operation that fails. -/
inductive Request
  | commitBatch (fault : Fault) (now : UInt64) (batch : List PendingWrite)
  | appendRecord (fault : Fault) (now : UInt64) (pw : PendingWrite)
  | flush (fault : Option FlushFault)

/-- Does `commitBatch` publish its batch?  It does so behind the records, the BatchCommit, the
barrier and the stages up to there. -/
def publishes (fault : Fault) (now : UInt64) (batch : List PendingWrite) (s : Store) : Bool :=
  match rotate fault now batch s with
  | (.error _, _, _) => false
  | (.ok _, fault, _) => fault.spares (batch.length + 6)

/-- One call after the other; there are no commits of nothing. -/
def step (w : Watched) : Request → Option Watched
  | .commitBatch fault now batch =>
    if batch = [] then none
    else
      let s := (w.store.commitBatch fault now batch).2
      if publishes fault now batch w.store then some ⟨s, s.streamSeq, w.unflushed + batch.length⟩
      else some { w with store := s }
  | .appendRecord fault now pw =>
    match w.store.appendRecord fault now pw with
    | (.ok _, s) => some ⟨s, s.streamSeq, w.unflushed + 1⟩
    | (.error _, s) => some { w with store := s }
  | .flush fault =>
    match w.store.flushWith fault with
    | (.ok _, s) => some { w with store := s, unflushed := 0 }
    | (.error _, s) => some { w with store := s }

/-- No file operation fails behind the reservation of a call: the fault that is left then is
none. -/
def Spares (w : Watched) : Request → Prop
  | .commitBatch fault now batch => ∀ fault' s,
      rotate fault now batch w.store = (.ok (), fault', s) → fault' = none
  | .appendRecord fault now pw => ∀ off fault' s,
      reserveOne fault now pw w.store = (.ok off, fault', s) → fault' = none
  | .flush _ => True

/-- **The invariant.**  Everything published has reached the watermark, and what is in the overlay
is counted. -/
structure Sound (w : Watched) : Prop where
  published : AllPublished w.store
  last : w.store.flushSeq = w.last
  unflushed : w.store.flushMutations = w.unflushed
  pending : w.store.overlay.drained = [] ↔ w.unflushed = 0

variable {w w' : Watched} {s s' : Store} {batch : List PendingWrite} {fault fault' : Fault}
  {now : UInt64} {pw : PendingWrite} {n : Nat}

/-- Calls that publish nothing and take no sequence. -/
theorem Sound.congr (h : Sound w)
    (heq : (s'.publishedSeq, s'.flushSeq, s'.streamSeq, s'.readyBatches) =
      (w.store.publishedSeq, w.store.flushSeq, w.store.streamSeq, w.store.readyBatches))
    (hcount : s'.flushMutations = w.store.flushMutations)
    (hoverlay : s'.overlay = w.store.overlay) :
    Sound { w with store := s' } := by
  refine ⟨h.published.congr heq, ?_, hcount.trans h.unflushed, ?_⟩
  · exact (congrArg (fun t => t.2.1) heq).trans h.last
  · rw [hoverlay]
    exact h.pending

theorem Sound.madeRoom (h : Sound w) (hroom : MadeRoom fault now w.store fault' s') :
    Sound { w with store := s' } :=
  h.congr (by rw [hroom.renewed.eq]) (by rw [hroom.renewed.eq]) (by rw [hroom.renewed.eq])

/-! ### Publishing -/

/-- A batch that fits is published if no operation fails. -/
theorem appendBatch_none (hfits : fits s.alloc batch = true) :
    ∃ alloc files, (appendBatch none batch s).2 =
      publishRecoveryBatch s.streamSeq (s.streamSeq + UInt64.ofNat batch.length) batch.length
        { s with
          alloc, files
          streamSeq := s.streamSeq + UInt64.ofNat batch.length
          overlay := putPlaced s.overlay
            (placeFrom s.alloc.segmentID s.alloc.offset s.streamSeq batch) } := by
  obtain ⟨alloc, -, happ⟩ := appendBatch_eq none hfits
  simp only [runOps_none, publishBatch, runOps, length_placeFrom, UInt64.add_sub_cancel] at happ
  exact ⟨_, _, congrArg Prod.snd happ⟩

theorem drained_put_ne (o : Overlay) (k : Key) (v : Value) : (o.put k v).drained ≠ [] := by
  simp [Overlay.drained, Overlay.put]

theorem drained_putPlaced_ne {placed : List PlacedWrite} (hne : placed ≠ []) (o : Overlay) :
    (putPlaced o placed).drained ≠ [] := by
  obtain ⟨front, pw, rfl⟩ := (List.eq_nil_or_concat' placed).resolve_left hne
  unfold putPlaced
  rw [List.foldl_append]
  exact drained_put_ne _ _ _

/-- A batch is published behind the watermark. -/
theorem Sound.publish {next : Store} {prev seq : UInt64} (h : Sound w)
    (hprev : prev = w.store.streamSeq) (hseq : next.streamSeq = seq)
    (hsame : (next.publishedSeq, next.readyBatches, next.flushMutations) =
      (w.store.publishedSeq, w.store.readyBatches, w.store.flushMutations))
    (hne : next.overlay.drained ≠ []) (hn : 0 < n) :
    Sound ⟨publishRecoveryBatch prev seq n next, (publishRecoveryBatch prev seq n next).streamSeq,
      w.unflushed + n⟩ := by
  simp only [Prod.mk.injEq] at hsame
  obtain ⟨hpublished, hready, hcount⟩ := hsame
  replace hready := hready.trans h.published.readyBatches
  rw [publishRecoveryBatch_next (by rw [hpublished, hprev, h.published.publishedSeq]) hready]
  have hpos : w.unflushed + n ≠ 0 := by omega
  refine ⟨⟨hseq.symm, hseq.symm, hready⟩, hseq.symm, ?_, iff_of_false hne hpos⟩
  show next.flushMutations + n = _
  rw [hcount, h.unflushed]
  rfl

theorem Sound.commitBatch (h : Sound w) (hspares : Spares w (.commitBatch fault now batch))
    (hstep : step w (.commitBatch fault now batch) = some w') : Sound w' := by
  have hroom := rotate_madeRoom fault now batch w.store
  rcases hrot : rotate fault now batch w.store with ⟨e | u, fault', s1⟩
  · have hnone : publishes fault now batch w.store = false := by simp only [publishes, hrot]
    have hleft : (w.store.commitBatch fault now batch).2 = s1 := by
      simp only [Store.commitBatch, hrot]
    rw [hrot] at hroom
    simp only [step, hnone, hleft] at hstep
    split at hstep <;> cases hstep
    exact h.madeRoom hroom
  · obtain rfl := hspares fault' s1 hrot
    have hpub : publishes fault now batch w.store = true := by
      simp only [publishes, hrot]
      rfl
    have hleft : (w.store.commitBatch fault now batch).2 = (appendBatch none batch s1).2 := by
      simp only [Store.commitBatch, hrot]
    obtain ⟨alloc, files, happ⟩ := appendBatch_none (rotate_fits hrot)
    rw [hrot] at hroom
    have hsame : s1 = { w.store with files := s1.files, nextSeg := s1.nextSeg, alloc := s1.alloc } :=
      hroom.renewed.eq
    simp only [step, hpub, hleft, happ] at hstep
    split at hstep <;> cases hstep
    rename_i hne
    have hlen := List.length_pos_iff.mpr hne
    have hplaced : placeFrom s1.alloc.segmentID s1.alloc.offset s1.streamSeq batch ≠ [] := by
      rwa [← List.length_pos_iff, length_placeFrom]
    exact h.publish (by rw [hsame]) rfl (by rw [hsame]) (drained_putPlaced_ne hplaced _) hlen

theorem Sound.appendRecord (h : Sound w) (hspares : Spares w (.appendRecord fault now pw))
    (hstep : step w (.appendRecord fault now pw) = some w') : Sound w' := by
  obtain ⟨fault', s1, hroom, ⟨e, heq⟩ | ⟨off, alloc, -, heq⟩⟩ :=
    reserveOne_cases fault now pw w.store
  · simp only [step, Store.appendRecord, heq] at hstep
    cases hstep
    exact h.madeRoom hroom
  obtain rfl := hspares off fault' _ heq
  have hsame := hroom.renewed.eq
  simp only [step, Store.appendRecord, heq, runOps_none] at hstep
  cases hcommit : alloc.reserveCommit batchCommitSize with
  | error e =>
    rw [hcommit] at hstep
    cases hstep
    exact (h.madeRoom hroom).congr rfl rfl rfl
  | ok r =>
    rw [hcommit] at hstep
    cases hstep
    generalize hnext : publishRecoveryBatch _ _ _ _ = next
    have hsound : Sound ⟨next, next.streamSeq, w.unflushed + 1⟩ := by
      rw [← hnext]
      exact h.publish (by rw [hsame]) rfl (by rw [hsame]) (drained_put_ne _ _ _) Nat.one_pos
    rcases enqueueApply_cases next [⟨pw.key, _⟩] with ⟨-, happly⟩ | ⟨-, happly⟩
    · rw [happly]
      exact hsound.congr rfl rfl rfl
    · rw [happly]
      exact hsound.congr rfl rfl rfl

/-! ### Flushing -/

theorem drained_restore_ne {o : Overlay} (h : o.drained ≠ []) :
    o.drain.restoreDrained.drained ≠ [] := by
  unfold Overlay.drained at h ⊢
  rw [ne_eq, List.map_eq_nil_iff] at h ⊢
  cases hentries : o.entries.entries with
  | nil => exact absurd hentries h
  | cons e es => simp [Overlay.restoreDrained, Overlay.drain, hentries]

/-- A flush empties the overlay and takes off what was counted, or leaves both. -/
theorem Sound.flush {fault : Option FlushFault} (h : Sound w)
    (hstep : step w (.flush fault) = some w') : Sound w' := by
  have hends := flushWith_ends fault w.store
  simp only [step] at hstep
  generalize flushWith fault w.store = r at hstep hends
  cases hends with
  | idle hnil =>
    cases hstep
    exact ⟨h.published.congr rfl, h.last, by rw [h.unflushed, h.pending.mp hnil],
      iff_of_true rfl rfl⟩
  | refused e hne | failed e hne =>
    cases hstep
    refine ⟨h.published.congr rfl, h.last, h.unflushed, ?_⟩
    exact iff_of_false (drained_restore_ne hne) (mt h.pending.mpr hne)
  | done =>
    cases hstep
    exact ⟨h.published.congr rfl, h.last, sub_self _, iff_of_true rfl rfl⟩

/-! ### Runs -/

theorem Sound.step {r : Request} (h : Sound w) (hspares : Spares w r)
    (hstep : step w r = some w') : Sound w' := by
  cases r with
  | commitBatch fault now batch => exact h.commitBatch hspares hstep
  | appendRecord fault now pw => exact h.appendRecord hspares hstep
  | flush fault => exact h.flush hstep

/-- What `New` has recovered, whatever was on disk. -/
theorem recoverActiveSegment_published {cfg : Config} {clock : RecoveryClock} {disk : Disk}
    (hrec : recoverActiveSegment cfg clock (opens cfg disk) = .ok s) :
    AllPublished s ∧ s.flushMutations = 0 := by
  unfold recoverActiveSegment at hrec
  dsimp only at hrec
  split at hrec
  · split at hrec <;> cases hrec
    exact ⟨⟨rfl, rfl, rfl⟩, rfl⟩
  · split at hrec <;> cases hrec
    exact ⟨⟨(seq_or_zero _).trans (max_seq_zero _).symm,
      (seq_or_zero _).trans (max_seq_zero _).symm, rfl⟩, rfl⟩

/-- A store that `New` returned, whatever was on disk. -/
theorem sound_new {cfg : Config} {clock : RecoveryClock} {disk : Disk}
    (hnew : Store.new cfg clock now disk = .ok s) : Sound ⟨s, s.streamSeq, 0⟩ := by
  unfold Store.new at hnew
  split at hnew
  · cases hnew
  rename_i s1 hrec
  obtain ⟨hpub, hcount⟩ := recoverActiveSegment_published hrec
  split at hnew
  · cases hnew
  rename_i s2 hpersist
  have hs2 : AllPublished s2 ∧ s2.flushMutations = 0 ∧ s2.overlay.drained = [] := by
    unfold persistRecoveredOverlay at hpersist
    dsimp only at hpersist
    split at hpersist
    · cases hpersist
    split at hpersist
    · rename_i hkeys
      cases hpersist
      refine ⟨hpub, hcount, ?_⟩
      simpa [Overlay.drained, AList.keys, List.keys] using hkeys
    split at hpersist
    · cases hpersist
    split at hpersist
    · cases hpersist
    split at hpersist
    · cases hpersist
    rename_i s3 hflush
    split at hpersist <;> cases hpersist
    rw [← flushWith_none] at hflush
    have hends := hflush ▸ flushWith_ends none _
    cases hends with
    | idle => exact ⟨hpub.congr rfl, hcount, rfl⟩
    | done => exact ⟨hpub.congr rfl, sub_self _, rfl⟩
  split at hnew
  · cases hnew
  rename_i s4 hopen
  split at hnew <;> cases hnew
  have heq := (newActiveSegment_renewed none now (classForStream cfg.streamID)
    { s2 with nextSeg := maxSegmentID s2.files }).eq
  rw [hopen] at heq
  dsimp only at heq
  rw [heq]
  exact ⟨hs2.1.congr rfl, hs2.1.flushSeq, hs2.2.1, iff_of_true hs2.2.2 rfl⟩

/--
**The watermark.**  If no file operation fails behind a reservation, then in every state that
is reached the watermark is the sequence of the last BatchCommit published to the overlay, the
mutations published since the last flush are counted, and what is in the overlay waits for a
flush.
-/
theorem watermark_exact {cfg : Config} {clock : RecoveryClock} {disk : Disk}
    (hnew : Store.new cfg clock now disk = .ok s) (requests : List Request)
    (hmeets : Guarded.Meets step Spares requests ⟨s, s.streamSeq, 0⟩)
    (hrun : Guarded.run step requests ⟨s, s.streamSeq, 0⟩ = some w) :
    w.store.flushSeq = w.last ∧ w.store.flushMutations = w.unflushed ∧
      (w.store.overlay.drained ≠ [] → 0 < w.store.flushMutations) := by
  have h : Sound w :=
    Guarded.run_invariant (fun _ _ _ h hspares hstep => h.step hspares hstep) (sound_new hnew)
      hmeets hrun
  refine ⟨h.last, h.unflushed, fun hne => ?_⟩
  rw [h.unflushed]
  exact Int.natCast_pos.mpr (Nat.pos_of_ne_zero (mt h.pending.mpr hne))

open MarkerRoom in
/-- A commit and its flush. -/
theorem watermark_exact_flushed :
    ∃ w, Guarded.run step [.commitBatch none 0 [deletion], .flush none]
        ⟨emptyStore 4096, (emptyStore 4096).streamSeq, 0⟩ = some w ∧
      w.store.flushSeq = w.last ∧ w.store.flushMutations = w.unflushed ∧
      (w.store.overlay.drained ≠ [] → 0 < w.store.flushMutations) := by
  have hnew : Store.new ⟨1, 4096, ⟨0, 0, 0⟩⟩ ⟨fun _ => false, fun _ => false⟩ 0 ⟨∅, ∅, none⟩ =
      .ok (emptyStore 4096) := rfl
  have hmeets : Guarded.Meets step Spares [.commitBatch none 0 [deletion], .flush none]
      ⟨emptyStore 4096, (emptyStore 4096).streamSeq, 0⟩ := by
    refine ⟨fun fault' s hrot => ?_, fun _ _ => ⟨trivial, fun _ _ => trivial⟩⟩
    have hroom := rotate_madeRoom none 0 [deletion] (emptyStore 4096)
    rw [hrot] at hroom
    exact hroom.fault_none
  exact ⟨_, rfl, watermark_exact hnew _ hmeets rfl⟩

open MarkerRoom in
/-- Behind a commit that failed, one that succeeds is in the overlay and not counted. -/
theorem watermark_stuck :
    Store.new ⟨1, 4096, ⟨0, 0, 0⟩⟩ ⟨fun _ => false, fun _ => false⟩ 0 ⟨∅, ∅, none⟩ =
        .ok (emptyStore 4096) ∧
      (Guarded.run step [.commitBatch (some (0, 0)) 0 [deletion], .commitBatch none 0 [deletion]]
        ⟨emptyStore 4096, (emptyStore 4096).streamSeq, 0⟩).map (fun w => (w.last, w.store.flushSeq,
          w.unflushed, w.store.flushMutations, w.store.overlay.drained.length)) =
        some (2, 0, 1, 0, 1) :=
  ⟨rfl, by decide +kernel⟩

end Watermark

end Nufs.Storage
