/-
Checkpoints cover what lies before them.

Without asynchronous applies the index changes only in a flush, which applies
everything the overlay holds.  So at any time the index stands where the store stood
after some first part of its commits, and a checkpoint was stored no later than that.
Replayed on the index, what lies behind a checkpoint brings every extent to its last
commit; `New` replays just that, as long as the checkpoint is in the active segment.

Positions in the log are compared by segment number first: a commit never goes back
behind the place where the allocator stands.
-/
import Nufs.Proofs.Storage.Framing
import Nufs.Proofs.Storage.Logging
import Nufs.Storage.Checkpoints
import Mathlib.Data.Prod.Lex

namespace Nufs.Storage

open ByteFile List AList Option Overlay

/-! ### What commits make of an index -/

variable (ix : Index)

theorem applyNow_append (muts muts' : List Mutation) :
    ix.applyNow (muts ++ muts') = (ix.applyNow muts).applyNow muts' := by
  unfold Index.applyNow
  rw [foldl_append]

/-- Mutations stand in front of the index they are applied to. -/
theorem lookup_applyNow_or (muts : List Mutation) (k : Key) : (ix.applyNow muts).lookup k =
    ((Index.applyNow ∅ muts).lookup k).or (ix.lookup k) := by
  induction muts using List.reverseRecOn with
  | nil => rfl
  | append_singleton muts x ih =>
    rw [applyNow_append, applyNow_append]
    show ((ix.applyNow muts).insert x.key x.value).lookup k =
      (((Index.applyNow ∅ muts).insert x.key x.value).lookup k).or (ix.lookup k)
    by_cases hk : k = x.key
    · rw [hk, lookup_insert, lookup_insert, some_or]
    · rw [lookup_insert_ne hk, lookup_insert_ne hk, ih]

/-- The index after records have been committed, oldest first. -/
def Index.after (commits : List PlacedWrite) : Index :=
  ix.applyNow (commits.map fun pw => ⟨pw.key, pw.published⟩)

theorem lookup_after_or (commits : List PlacedWrite) (k : Key) : (ix.after commits).lookup k =
    ((Index.after ∅ commits).lookup k).or (ix.lookup k) := lookup_applyNow_or ix _ k

theorem after_append (commits commits' : List PlacedWrite) :
    ix.after (commits ++ commits') = (ix.after commits).after commits' := by
  unfold Index.after
  rw [map_append, applyNow_append]

/-! ### What recovery makes of records -/

/-- The overlay recovery builds from records. -/
def replayed (commits : List PlacedWrite) : Overlay :=
  (commits.map PlacedWrite.descriptor).foldl CommitDescriptor.applyTo .empty

/-- The same binding; of a deleted extent only the tombstone counts. -/
def SameBinding (v w : Option Value) : Prop :=
  v = w ∨ v.map Value.state = some .tombstoned ∧ w.map Value.state = some .tombstoned

theorem SameBinding.or {v w : Option Value} (h : SameBinding v w) (u : Option Value) :
    SameBinding (v.or u) (w.or u) := by
  rcases h with rfl | ⟨hv, hw⟩
  · exact .inl rfl
  · obtain ⟨v, rfl, -⟩ := map_eq_some_iff.mp hv
    obtain ⟨w, rfl, -⟩ := map_eq_some_iff.mp hw
    exact .inr ⟨hv, hw⟩

variable {pw : PlacedWrite}

/-- A place in the log: the segments one after the other, each by its offsets. -/
abbrev Place := Lex (Nat × Nat)

def PlacedWrite.place (pw : PlacedWrite) : Place := toLex (pw.segID, pw.offset)

def RecoveryCheckpoint.place (cp : RecoveryCheckpoint) : Place :=
  toLex (cp.segmentID, cp.safeOffset)

/-- Where the next record goes. -/
def Allocator.place (a : Allocator) : Place := toLex (a.segmentID, a.offset)

variable {cp : RecoveryCheckpoint} {s : Store}

namespace Store

/-- The store went on in its log. -/
structure Forward (s s' : Store) : Prop where
  nextSeg : s'.alloc.segmentID ≤ s'.nextSeg
  place : s.alloc.place ≤ s'.alloc.place

theorem Forward.refl (h : s.alloc.segmentID ≤ s.nextSeg) : Forward s s := ⟨h, le_refl _⟩

/-- The tail moved on in its segment. -/
theorem place_le_of_offset {a a' : Allocator} (hseg : a'.segmentID = a.segmentID)
    (hoff : a.offset ≤ a'.offset) : a.place ≤ a'.place :=
  Prod.Lex.toLex_le_toLex.mpr (.inr ⟨hseg.symm, hoff⟩)

variable (fault : Fault) (now : UInt64)

theorem MadeRoom.forward {fault fault' : Fault} {now : UInt64} {s' : Store}
    (hroom : MadeRoom fault now s fault' s') (h : s.alloc.segmentID ≤ s.nextSeg) :
    Forward s s' := by
  obtain ⟨-, hnext, halloc | ⟨halloc, hnew⟩⟩ := hroom.renewed
  · exact ⟨halloc ▸ h.trans hnext, halloc ▸ le_refl _⟩
  · refine ⟨halloc ▸ hnew.ge, ?_⟩
    rw [halloc]
    exact Prod.Lex.toLex_le_toLex.mpr (.inl (Nat.lt_succ_of_le h))

theorem rotate_fits {fault fault' : Fault} {now : UInt64} {batch : List PendingWrite} {s' : Store}
    (h : rotate fault now batch s = (.ok (), fault', s')) : fits s'.alloc batch = true := by
  unfold rotate at h
  split at h
  · rename_i hfits
    obtain rfl : s = s' := by simpa using (Prod.mk.inj (Prod.mk.inj h).2).2
    exact hfits
  split at h
  · simp at h
  · split at h
    · rename_i s1 _ hfits
      obtain rfl : s1 = s' := by simpa using (Prod.mk.inj (Prod.mk.inj h).2).2
      exact hfits
    · simp at h

theorem placeFrom_offset (segID : SegmentID) (batch : List PendingWrite) :
    ∀ (off : Nat) (seq : UInt64), ∀ pw ∈ placeFrom segID off seq batch,
      pw.segID = segID ∧ off ≤ pw.offset := by
  induction batch with
  | nil =>
    intro off seq pw hpw
    simp [placeFrom] at hpw
  | cons p batch ih =>
    intro off seq pw hpw
    rcases mem_cons.mp hpw with rfl | hpw
    · exact ⟨rfl, le_refl _⟩
    · obtain ⟨hseg, hlo⟩ := ih _ _ pw hpw
      exact ⟨hseg, by omega⟩

theorem publishBatch_alloc (placed : List PlacedWrite) (s : Store) :
    (publishBatch fault placed s).2.alloc = s.alloc.recordCommit s.streamSeq ∧
      (publishBatch fault placed s).2.nextSeg = s.nextSeg ∧
      ∀ placed', (publishBatch fault placed s).1 = .ok placed' → placed' = placed := by
  unfold publishBatch
  dsimp only
  split
  · exact ⟨rfl, rfl, by simp⟩
  · split
    · exact ⟨rfl, rfl, by simp⟩
    · rw [publishRecoveryBatch_eq]
      exact ⟨rfl, rfl, fun placed' h => (Except.ok.inj h).symm⟩

/-- A batch is written behind the tail of the log, and the tail moves behind it. -/
theorem commitBatch_forward (batch : List PendingWrite) (h : s.alloc.segmentID ≤ s.nextSeg) :
    Forward s (commitBatch fault now batch s).2 ∧
      ∀ placed, (commitBatch fault now batch s).1 = .ok placed → ∀ pw ∈ placed,
        s.alloc.place ≤ pw.place := by
  have hrot := (rotate_madeRoom fault now batch s).forward h
  unfold commitBatch
  split
  · rename_i heq
    rw [heq] at hrot
    exact ⟨hrot, by simp⟩
  rename_i u fault' s1 heq
  rw [heq] at hrot
  have hfits := rotate_fits heq
  obtain ⟨alloc, hadv, happ⟩ := appendBatch_eq fault' hfits
  dsimp only at happ hrot
  -- Whatever becomes of the writes, the reservation stays.
  have htail : s1.alloc.place ≤ alloc.place :=
    place_le_of_offset hadv.segmentID (by rw [hadv.offset]; omega)
  have hnext : alloc.segmentID ≤ s1.nextSeg := by
    rw [hadv.segmentID]
    exact hrot.nextSeg
  rw [happ]
  split
  · exact ⟨⟨hnext, hrot.place.trans htail⟩, by simp⟩
  rename_i fault'' files _
  obtain ⟨halloc, hseg, hplaced⟩ := publishBatch_alloc fault''
    (placeFrom s1.alloc.segmentID s1.alloc.offset s1.streamSeq batch)
    { s1 with alloc, streamSeq := s1.streamSeq + UInt64.ofNat batch.length, files }
  refine ⟨⟨?_, ?_⟩, ?_⟩
  · rw [halloc, hseg]
    exact hnext
  · rw [halloc]
    exact hrot.place.trans htail
  intro placed hok pw hpw
  rw [hplaced placed hok] at hpw
  obtain ⟨hsegID, hlo⟩ := placeFrom_offset _ batch _ _ pw hpw
  exact hrot.place.trans (Prod.Lex.toLex_le_toLex.mpr (.inr ⟨hsegID.symm, hlo⟩))

end Store

/-! ### The log of a run -/

/-- The store writes a log that has, behind a checkpoint of its segment, the given records. -/
def Store.Logged (cfg : Config) (s : Store) (rest : List PlacedWrite) : Prop :=
  ∃ before after file q, Logging cfg s before after file q ∧
    ∀ cp, s.checkpoint = some cp → cp.segmentID = s.alloc.segmentID →
      segmentDescriptors cfg.streamID cp.segmentID (before ++ after) =
        segmentDescriptors cfg.streamID cp.segmentID before ++ rest.map PlacedWrite.descriptor

namespace Store

variable {cfg : Config} {s' : Store} {rest : List PlacedWrite}

/-- What is only in memory or in the index does not matter. -/
theorem Logged.congr (h : Logged cfg s rest) (heq : s' = { s with
      overlay := s'.overlay, index := s'.index, safeSeq := s'.safeSeq
      flushMutations := s'.flushMutations }) : Logged cfg s' rest := by
  obtain ⟨before, after, file, q, hlog, hreplays⟩ := h
  refine ⟨before, after, file, q, hlog.congr (by rw [heq]), ?_⟩
  rw [heq]
  exact hreplays

/-- A commit extends the log, or goes on in the next segment. -/
theorem Logged.commitBatch (h : Logged cfg s rest) {batch : List PendingWrite} (hne : batch ≠ [])
    (hframes : ∀ pw ∈ batch, ∃ r, pw.Frames r)
    (hbound : s.streamSeq.toNat + batch.length < seqBound) (now : UInt64) :
    Logged cfg (Store.commitBatch none now batch s).2
      (rest ++ (Store.commitBatch none now batch s).1.toOption.getD []) := by
  obtain ⟨before, after, file, q, hlog, hreplays⟩ := h
  have hcommits := commitBatch_commits none now batch s
  have hcp : (Store.commitBatch none now batch s).2.checkpoint = s.checkpoint := by
    generalize Store.commitBatch none now batch s = r at hcommits
    cases hcommits with
    | unpublished hunseen => exact hunseen.toKept.checkpoint
    | failed _ hkept | committed hkept => exact hkept.checkpoint
  have hextend : ∀ {s' before' after' after1 file' q'} {placed : List PlacedWrite},
      Logging cfg s' before' after' file' q' → s'.checkpoint = s.checkpoint →
      Continues s.alloc.segmentID before after s'.alloc.segmentID before' after1 →
      segmentDescriptors cfg.streamID s'.alloc.segmentID (before' ++ after') =
        segmentDescriptors cfg.streamID s'.alloc.segmentID (before' ++ after1) ++
          placed.map PlacedWrite.descriptor → Logged cfg s' (rest ++ placed) := by
    intro s' before' after' after1 file' q' placed hlog' hcp hcont hplaced
    refine ⟨_, _, _, _, hlog', fun cp hstored hseg => ?_⟩
    rw [hcp] at hstored
    rcases hcont.elim with ⟨hid, rfl, rfl⟩ | ⟨hid, -, -⟩
    · rw [← hseg] at hplaced
      rw [hplaced, hreplays cp hstored (hseg.trans hid), map_append, append_assoc]
    · have hle := hlog.boundary.segmentID_le cp hstored
      rw [hseg, hid] at hle
      exact absurd hle (Nat.not_succ_le_self _)
  rcases hlog.commitBatch hne hframes hbound now with
    ⟨e, s', before', after', file', q', heq, hlog', hcont⟩ |
    ⟨placed, s', before', after', b, file', q', heq, hlog', hcont, hplaced⟩ <;> rw [heq] at hcp ⊢
  · exact hextend hlog' hcp hcont (by simp [Except.toOption])
  · refine hextend hlog' hcp hcont ?_
    rw [← append_assoc, ← hlog'.streamID]
    exact hplaced.descriptors

/-! ### One flush -/

variable {o : Overlay}

theorem restoreDrained_drain (h : o.draining = ∅) : o.drain.restoreDrained = o := by
  obtain ⟨entries, draining⟩ := o
  obtain rfl : draining = ∅ := h
  simp only [Overlay.drain, Overlay.restoreDrained, empty_union, union_empty]

theorem drain_of_drained_nil (h : o.draining = ∅) (hnil : o.drained = []) : o.drain = o := by
  obtain ⟨entries, draining⟩ := o
  obtain rfl : draining = ∅ := h
  obtain rfl : entries = ∅ := AList.ext (map_eq_nil_iff.mp hnil)
  rfl

/-- Where the marker leaves the tail; the checkpoint is there. -/
theorem writeIndexSafeLocked_alloc (fault : Fault) (safe : UInt64) (s : Store) :
    let r := writeIndexSafeLocked fault safe s
    r.2.alloc.segmentID = s.alloc.segmentID ∧ s.alloc.offset ≤ r.2.alloc.offset ∧
      ∀ cp, r.1 = .ok cp → cp.place = r.2.alloc.place := by
  unfold writeIndexSafeLocked
  split
  · exact ⟨rfl, le_refl _, nofun⟩
  rename_i tail htail
  have htail' : tail = s.alloc.offset := by
    unfold Allocator.currentTail at htail
    split at htail
    · simp at htail
    · exact (Except.ok.inj htail).symm
  split
  · exact ⟨rfl, le_refl _, nofun⟩
  · refine ⟨rfl, Nat.le_add_right _ _, ?_⟩
    intro cp hcp
    rw [← Except.ok.inj hcp, htail']
    rfl

theorem flushCheckpoint_cases (fault : Option FlushFault) (fl : Flush) (cp : RecoveryCheckpoint)
    (s : Store) : ∃ checkpoint,
      (checkpoint = s.checkpoint ∨ checkpoint = some cp ∧ cp.safeSeq ≠ 0) ∧
      ((∃ e, flushCheckpoint fault fl cp s = (.error e, { s.flushAbort with checkpoint })) ∨
        flushCheckpoint fault fl cp s = (.ok (), { s.flushDone fl with checkpoint })) := by
  unfold flushCheckpoint storeRecoveryCheckpoint
  split_ifs with hinvalid
  · exact ⟨_, .inl rfl, .inl ⟨_, rfl⟩⟩
  have hseq : cp.safeSeq ≠ 0 := fun h => hinvalid (.inr (.inr h))
  cases fault with
  | none => exact ⟨_, .inr ⟨rfl, hseq⟩, .inr rfl⟩
  | some fault =>
    cases fault with
    | checkpoint err replaced =>
      cases replaced with
      | true => exact ⟨_, .inr ⟨rfl, hseq⟩, .inl ⟨_, rfl⟩⟩
      | false => exact ⟨_, .inl rfl, .inl ⟨_, rfl⟩⟩
    | _ => exact ⟨_, .inr ⟨rfl, hseq⟩, .inr rfl⟩

/-- Where the marker leaves the tail.  A checkpoint that is stored is there; if the marker is not
lost, the log goes on, or is empty behind the new checkpoint. -/
structure Marked (fault : Option FlushFault) (s : Store) (files : Dir) (alloc : Allocator)
    (checkpoint : Option RecoveryCheckpoint) : Prop where
  segmentID : alloc.segmentID = s.alloc.segmentID
  offset : s.alloc.offset ≤ alloc.offset
  place : ∀ cp, checkpoint = some cp → s.checkpoint = some cp ∨ cp.place = alloc.place
  logged : FlushFault.markerFault fault = none → ∀ {cfg : Config} {rest : List PlacedWrite},
    Logged cfg s rest → Logged cfg { s with files, alloc, checkpoint } rest ∨
      Logged cfg { s with files, alloc, checkpoint } []

/-- **How a flush ends**: with nothing to do, before the index has the mutations, or behind it. -/
inductive FlushEnds (fault : Option FlushFault) (s : Store) : Except Err Unit × Store → Prop
  | idle (hnil : s.overlay.drained = []) :
    FlushEnds fault s (.ok (), { s with overlay := s.overlay.drain })
  | refused (e : Err) (hne : s.overlay.drained ≠ []) :
    FlushEnds fault s (.error e, { s with overlay := s.overlay.drain.restoreDrained })
  | failed (e : Err) {files : Dir} {alloc : Allocator} {checkpoint : Option RecoveryCheckpoint}
      (hne : s.overlay.drained ≠ []) (hmarked : Marked fault s files alloc checkpoint) :
    FlushEnds fault s (.error e, { s with
      overlay := s.overlay.drain.restoreDrained, index := s.index.applyNow s.overlay.drained
      files, alloc, checkpoint })
  | done {files : Dir} {alloc : Allocator} {checkpoint : Option RecoveryCheckpoint}
      (hmarked : Marked fault s files alloc checkpoint) :
    FlushEnds fault s (.ok (), { s with
      overlay := s.overlay.drain.discardDrained, index := s.index.applyNow s.overlay.drained
      safeSeq := s.flushSeq, flushMutations := s.flushMutations - s.flushMutations
      files, alloc, checkpoint })

theorem flushWith_ends (fault : Option FlushFault) (s : Store) :
    FlushEnds fault s (flushWith fault s) := by
  unfold flushWith flushDrain
  by_cases hnil : s.overlay.drained = []
  · simp only [if_pos hnil]
    exact .idle hnil
  simp only [if_neg hnil]
  split
  · exact .refused _ hnil
  · exact .failed _ hnil ⟨rfl, le_refl _, fun _ => .inl, fun _ _ _ => .inl⟩
  unfold flushMarker
  set safe := Flush.safe ⟨s.flushSeq, s.flushMutations, s.overlay.drained⟩
  set s1 := applyNow { s with overlay := s.overlay.drain } s.overlay.drained
  have hmark := writeIndexSafeLocked_eq (FlushFault.markerFault fault) safe s1
  have halloc := writeIndexSafeLocked_alloc (FlushFault.markerFault fault) safe s1
  have hmarking : FlushFault.markerFault fault = none →
      ∀ {cfg : Config} {before after : List LogEntry} {file : File} {q : UInt64},
        Logging cfg s before after file q → Marking cfg s1 before after file q
          (writeIndexSafeLocked (FlushFault.markerFault fault) safe s1) := by
    intro hfault cfg before after file q h
    rw [hfault, show safe = s1.streamSeq from h.published.flushSeq]
    exact Logging.marking (h.congr rfl)
  generalize writeIndexSafeLocked _ _ _ = r at hmark halloc hmarking ⊢
  obtain ⟨e | cp, s2⟩ := r <;> obtain ⟨hseg, hoff, hplace⟩ := halloc <;> dsimp only at hmark ⊢
  · rw [hmark]
    refine .failed _ hnil ⟨hseg, hoff, fun _ => .inl, fun hfault cfg rest h => .inl ?_⟩
    obtain ⟨before, after, file, q, hlog, hreplays⟩ := h
    cases hmarking hfault hlog
    exact ⟨before, after, file, q, hlog, hreplays⟩
  obtain ⟨checkpoint, hcp, hcase⟩ := flushCheckpoint_cases fault
    ⟨s.flushSeq, s.flushMutations, s.overlay.drained⟩ cp s2
  have hmarked : Marked fault s s2.files s2.alloc checkpoint := by
    refine ⟨hseg, hoff, fun cp' hcp' => ?_, fun hfault cfg rest h => ?_⟩
    · rcases hcp with rfl | ⟨rfl, -⟩
      · rw [hmark] at hcp'
        exact .inl hcp'
      · obtain rfl := Option.some.inj hcp'
        exact .inr (hplace cp rfl)
    obtain ⟨before, after, file, q, hlog, hreplays⟩ := h
    cases hmarking hfault hlog with
    | @written _ t file' happ hlog' =>
      rcases hcp with rfl | ⟨rfl, hne⟩
      · refine .inl ⟨before, _, file', q, hlog'.congr (by rw [hmark]; rfl), fun cp hcp hid => ?_⟩
        rw [hmark] at hcp
        rw [← append_assoc, segmentDescriptors_safeAt, hreplays cp hcp (hid.trans hseg)]
      · have hstored := hlog'.checkpoint (by rw [append_assoc, happ.streamSeq]) hne
        exact .inr ⟨_, [], file', _, hstored.congr (by rw [hmark]; rfl), by simp⟩
  rcases hcase with ⟨e, hcase⟩ | hcase <;> rw [hcase, hmark]
  · exact .failed _ hnil hmarked
  · exact .done hmarked

/-- Without a fault it is the flush of the store. -/
theorem flushWith_none (s : Store) : flushWith none s = flush s := by
  unfold flushWith flush flushMarker flushCheckpoint FlushFault.markerFault
  rcases flushDrain s with ⟨_ | fl, s1⟩
  · rfl
  dsimp only
  rcases writeIndexSafeLocked none fl.safe (s1.applyNow fl.muts) with ⟨_ | cp, s2⟩
  · rfl
  · dsimp only
    cases storeRecoveryCheckpoint cp s2 with
    | error e | ok s3 => rfl

end Store

/-! ### Runs -/

/--
Where a store stands that has committed and flushed, from an index on: the index
has the first commits, and the checkpoint was stored before the newer ones.  What was
committed behind it is in the log, if nothing went wrong there.
-/
structure Checkpointed.Sound (cfg : Config) (start : Index) (intact : Prop) (c : Checkpointed)
    (front newer : List PlacedWrite) : Prop where
  commits : c.commits = front ++ newer
  draining : c.store.overlay.draining = ∅
  nextSeg : c.store.alloc.segmentID ≤ c.store.nextSeg
  requests : ∀ pw ∈ c.commits, pw.isRequest = true
  visible : ∀ k, c.store.lookup k = (start.after c.commits).lookup k
  indexed : ∀ k, c.store.index.lookup k = (start.after front).lookup k
  behind : ∀ cp, c.store.checkpoint = some cp → cp.place ≤ c.store.alloc.place ∧
    ∀ pw ∈ newer, cp.place ≤ pw.place
  log : intact → ∃ rest, rest <:+ front ∧ c.store.Logged cfg (rest ++ newer)

/-- The records of a batch fit their formats, and no marker is lost. -/
def CheckpointAction.Logs (c : Checkpointed) : CheckpointAction → Prop
  | .commit batch _ => (∀ pw ∈ batch, ∃ r, pw.Frames r) ∧
      c.store.streamSeq.toNat + batch.length < seqBound
  | .flush fault => FlushFault.markerFault fault = none

namespace Checkpointed

/-- Every action of a run does so. -/
def Logs : List CheckpointAction → Checkpointed → Prop
  | [], _ => True
  | act :: acts, c => act.Logs c ∧ Logs acts (c.step act)

namespace Sound

variable {cfg : Config} {start : Index} {intact intact' : Prop} {c : Checkpointed}
  {front newer : List PlacedWrite} (h : Sound cfg start intact c front newer)
include h

theorem lookup_entries (k : Key) :
    c.store.lookup k = (c.store.overlay.entries.lookup k).or (c.store.index.lookup k) := by
  rw [Store.lookup_eq, h.draining, lookup_empty, or_none]

/-- A commit adds its records behind the tail. -/
theorem committed {placed : List PlacedWrite} (hkept : Store.Kept c.store s)
    (hoverlay : s.overlay = Store.putPlaced c.store.overlay placed)
    (hforward : Store.Forward c.store s) (hreq : ∀ pw ∈ placed, pw.isRequest = true)
    (hplaced : ∀ pw ∈ placed, c.store.alloc.place ≤ pw.place)
    (hlog : intact' → ∃ rest, rest <:+ front ∧ s.Logged cfg (rest ++ newer ++ placed)) :
    Sound cfg start intact' ⟨s, c.commits ++ placed⟩ front (newer ++ placed) := by
  have hnone : s.overlay.draining = ∅ := by rw [hoverlay, Store.draining_putPlaced, h.draining]
  refine ⟨?_, hnone, hforward.nextSeg, ?_, ?_, ?_, ?_, ?_⟩
  · rw [h.commits, append_assoc]
  · exact forall_mem_append.mpr ⟨h.requests, hreq⟩
  · intro k
    have hentries : s.overlay.entries = c.store.overlay.entries.after placed := by
      rw [hoverlay]
      exact Store.entries_putPlaced _ _
    rw [after_append, lookup_after_or, ← h.visible, h.lookup_entries, ← Option.or_assoc,
      ← lookup_after_or, Store.lookup_eq, hnone, lookup_empty, or_none, hentries, hkept.index]
  · rw [hkept.index]
    exact h.indexed
  · intro cp hcp
    obtain ⟨hahead, hbehind⟩ := h.behind cp (hkept.checkpoint ▸ hcp)
    exact ⟨hahead.trans hforward.place,
      forall_mem_append.mpr ⟨hbehind, fun pw hpw => hahead.trans (hplaced pw hpw)⟩⟩
  · simpa only [append_assoc] using hlog

theorem weaken (hintact : intact' → intact) : Sound cfg start intact' c front newer :=
  { h with log := fun hi => h.log (hintact hi) }

/-- A flush that brings the index to where the store stands. -/
theorem applied {fault : Option FlushFault} {overlay : Overlay} {safeSeq : UInt64}
    {flushMutations : Int} {files : Dir} {alloc : Allocator}
    {checkpoint : Option RecoveryCheckpoint}
    (hmarked : Store.Marked fault c.store files alloc checkpoint) (hdraining : overlay.draining = ∅)
    (hoverlay : overlay = c.store.overlay ∨ ∀ k, overlay.get k = none)
    (hintact : intact' → intact ∧ FlushFault.markerFault fault = none) :
    Sound cfg start intact' ⟨{ c.store with
      overlay, index := c.store.index.applyNow c.store.overlay.drained
      safeSeq, flushMutations, files, alloc, checkpoint }, c.commits⟩ c.commits [] := by
  have hall : ∀ k, (c.store.index.applyNow c.store.overlay.drained).lookup k =
      (start.after c.commits).lookup k := by
    intro k
    rw [← h.visible k, h.lookup_entries k, lookup_applyNow_drained]
  refine ⟨(append_nil _).symm, hdraining, hmarked.segmentID.le.trans h.nextSeg,
    h.requests, ?_, hall, fun cp hcp => ⟨?_, by simp⟩, fun hi => ?_⟩
  · intro k
    show (overlay.get k).or _ = _
    rw [hall k]
    rcases hoverlay with rfl | hnone
    · have hfound := h.visible k
      unfold Store.lookup at hfound
      cases hk : c.store.overlay.get k with
      | none => rw [none_or]
      | some v => rwa [hk, some_or] at hfound
    · rw [hnone k, none_or]
  · rcases hmarked.place cp hcp with hold | hplace
    · exact (h.behind cp hold).1.trans
        (Store.place_le_of_offset hmarked.segmentID hmarked.offset)
    · exact hplace.le
  · obtain ⟨rest, ⟨older, hfront⟩, hlog⟩ := h.log (hintact hi).1
    rcases hmarked.logged (hintact hi).2 hlog with hlog' | hlog'
    · refine ⟨rest ++ newer, ⟨older, ?_⟩, by rw [append_nil]; exact hlog'.congr rfl⟩
      rw [← append_assoc, hfront, h.commits]
    · exact ⟨[], nil_suffix, hlog'.congr rfl⟩

theorem step (act : CheckpointAction) :
    ∃ front newer, Sound cfg start (intact ∧ act.Logs c) (c.step act) front newer := by
  cases act with
  | flush fault =>
    have hrestore := Store.restoreDrained_drain h.draining
    have hends := Store.flushWith_ends fault c.store
    show ∃ front newer, Sound cfg start _ ⟨(c.store.flushWith fault).2, c.commits⟩ front newer
    generalize c.store.flushWith fault = r at hends ⊢
    cases hends with
    | idle hnil =>
      rw [Store.drain_of_drained_nil h.draining hnil]
      exact ⟨_, _, h.weaken And.left⟩
    | refused e hne =>
      rw [hrestore]
      exact ⟨_, _, h.weaken And.left⟩
    | failed e hne hmarked => exact ⟨_, _, h.applied hmarked rfl (.inl hrestore) id⟩
    | done hmarked => exact ⟨_, _, h.applied hmarked rfl (.inr fun _ => rfl) id⟩
  | commit batch now =>
    unfold Checkpointed.step
    dsimp only
    split_ifs with hskip
    · exact ⟨_, _, h.weaken And.left⟩
    obtain ⟨hforward, hplaced⟩ := Store.commitBatch_forward none now batch h.nextSeg
    have hcommits := Store.commitBatch_commits none now batch c.store
    have hlog : intact ∧ CheckpointAction.Logs c (.commit batch now) →
        ∃ rest, rest <:+ front ∧ Store.Logged cfg (Store.commitBatch none now batch c.store).2
          (rest ++ newer ++ (Store.commitBatch none now batch c.store).1.toOption.getD []) := by
      rintro ⟨hi, hframes, hbound⟩
      obtain ⟨rest, hrest, hlogged⟩ := h.log hi
      exact ⟨rest, hrest, hlogged.commitBatch (fun hnil => hskip (.inl hnil)) hframes hbound now⟩
    have hreq : ∀ pw ∈ batch, pw.isRequest = true := by
      have hall : batch.all PendingWrite.isRequest = true := by
        simpa using fun hf => hskip (.inr hf)
      exact all_eq_true.mp hall
    generalize Store.commitBatch none now batch c.store = r at hforward hplaced hcommits hlog
    cases hcommits with
    | @unpublished e s hunseen =>
      have hnothing : s.overlay = Store.putPlaced c.store.overlay [] := hunseen.overlay
      have hcommitted := h.committed hunseen.toKept hnothing hforward (by simp) (by simp) hlog
      rw [append_nil] at hcommitted
      exact ⟨_, _, hcommitted⟩
    | failed hfault => exact absurd rfl hfault
    | @committed s placed hkept hbatch hoverlay =>
      refine ⟨_, _, h.committed hkept hoverlay hforward ?_ (hplaced placed rfl) hlog⟩
      intro pw hpw
      refine hreq pw.toPendingWrite ?_
      rw [← hbatch]
      exact mem_map_of_mem hpw

omit h in
theorem run (acts : List CheckpointAction) :
    ∀ {c : Checkpointed} {intact : Prop} {front newer : List PlacedWrite},
      Sound cfg start intact c front newer →
        ∃ front newer, Sound cfg start (intact ∧ c.Logs acts) (c.run acts) front newer := by
  induction acts with
  | nil =>
    intro c intact front newer h
    rw [Logs, and_true]
    exact ⟨_, _, h⟩
  | cons act acts ih =>
    intro c intact front newer h
    obtain ⟨_, _, hstep⟩ := h.step act
    obtain ⟨_, _, hrun⟩ := ih hstep
    rw [and_assoc] at hrun
    exact ⟨_, _, hrun⟩

end Sound

end Checkpointed

variable {cfg : Config} {h : SegmentID} {index : Index} {seq : UInt64}

/-- A store that `New` returned has a checkpoint in an older segment, if any. -/
theorem Store.Opened.sound (hs : s.Opened cfg h index seq) (hseq : seq.toNat < seqBound) :
    Checkpointed.Sound cfg s.index True ⟨s, []⟩ [] [] := by
  have hold : ∀ cp, s.checkpoint = some cp → cp.segmentID < s.alloc.segmentID := by
    intro cp hcp
    rw [hs.segmentID]
    exact Nat.lt_succ_of_le (hs.checkpoint cp hcp)
  obtain ⟨file, hlog⟩ := hs.logging hseq
  refine ⟨rfl, by rw [hs.overlay]; rfl, hlog.writing.nextSeg.ge, by simp, fun k => ?_, fun k => rfl,
    fun cp hcp => ⟨Prod.Lex.toLex_le_toLex.mpr (.inl (hold cp hcp)), by simp⟩,
    fun _ => ⟨[], suffix_rfl, [], [], file, 0, hlog, ?_⟩⟩
  · unfold Store.lookup
    rw [hs.overlay]
    rfl
  · exact fun cp hcp hseg => absurd hseg (hold cp hcp).ne

namespace SampleCheckpoint

/-- A record of one byte. -/
def record (e : ExtentID) : PendingWrite :=
  let entry : FrameIndexEntry := ⟨0, 1, .none, crc32c [7]⟩
  ⟨putHeader e 1 [7] [7] [entry] .none 0, FrameIndex.encode [entry], [7], none⟩

/-- A flush between the first commit and two more. -/
def acts : List CheckpointAction :=
  [.commit [record 7] 0, .flush none, .commit [record 8] 0, .commit [record 9] 0]

/-- All in one segment. -/
def done : Checkpointed := Checkpointed.run ⟨SampleMachine.emptyStore, []⟩ acts

theorem frames (e : ExtentID) : ∀ pw ∈ [record e], ∃ r, pw.Frames r := by
  intro pw hpw
  have hbuild : Store.buildPut SampleMachine.codec (fun _ => []) (e, 1) [7] false .none (0, none) =
      .ok pw := by
    rw [mem_singleton.mp hpw]
    rfl
  refine Store.buildPut_frames hbuild (by decide) ?_
  rw [mem_singleton.mp hpw, PendingWrite.length_bytes]
  show recordHeaderSize + 13 + 1 + recordTrailerSize < 2 ^ 32
  decide

end SampleCheckpoint

open SampleCheckpoint SampleNode

end Nufs.Storage
