/-
What a running store has on disk.

A running store logs.  One operation can leave the allocator ahead of the file: an
append of the compactor that reserves room for its record and then finds none for its
commit.  From then on nothing is written to that segment, since it has no room and
cannot be sealed either.  Where an operation or an opening is cut off inside, it
leaves a log of which the end may be missing.
-/
import Nufs.Storage.Life
import Nufs.Proofs.Storage.Startup

namespace Nufs.Storage

open ByteFile List

namespace Store

/-- The allocator is ahead of its file, and the segment has no room for a commit. -/
structure Stuck (cfg : Config) (s : Store) (file : File) : Prop where
  disk : OnDisk cfg s.files s.checkpoint
  lookup : s.files.lookup s.alloc.segmentID = some file
  ahead : file.bytes.length < s.alloc.offset
  full : s.alloc.maxSegmentBytes < s.alloc.offset + batchCommitSize

/-- A running store. -/
def Stored (cfg : Config) (s : Store) : Prop :=
  (∃ before after file q, Logging cfg s before after file q) ∨ ∃ file, Stuck cfg s file

/-- What an operation leaves: a running store, or what recovery can read if it was cut off. -/
def Survives (cfg : Config) (fault : Fault) (s : Store) : Prop :=
  Stored cfg s ∨ fault ≠ none ∧ OnDisk cfg s.files s.checkpoint

section Stored

variable {cfg : Config} {s s' : Store} {before after rest : List LogEntry} {file file' : File}
  {q : UInt64} {fault : Fault} {now : UInt64} {pw : PendingWrite} {r : FramedRecord}
  {batch : List PendingWrite} {h : SegmentID} {segmentClass : SegmentClass}

theorem Logging.onDisk (hs : Logging cfg s before after file q) :
    OnDisk cfg s.files s.checkpoint :=
  hs.torn.onDisk

theorem Stored.onDisk (hs : Stored cfg s) : OnDisk cfg s.files s.checkpoint := by
  rcases hs with ⟨before, after, file, q, hs⟩ | ⟨file, hs⟩
  · exact hs.onDisk
  · exact hs.disk

theorem Survives.onDisk (hs : Survives cfg fault s) : OnDisk cfg s.files s.checkpoint := by
  rcases hs with hs | ⟨-, hdisk⟩
  · exact hs.onDisk
  · exact hdisk

/-! ### A store that is stuck -/

theorem Stuck.congr (hs : Stuck cfg s file) (heq : (s'.files, s'.alloc, s'.checkpoint) =
    (s.files, s.alloc, s.checkpoint)) : Stuck cfg s' file := by
  simp only [Prod.mk.injEq] at heq
  obtain ⟨hfiles, halloc, hcp⟩ := heq
  refine ⟨?_, ?_, ?_, ?_⟩
  · rw [hfiles, hcp]
    exact hs.disk
  · rw [hfiles, halloc]
    exact hs.lookup
  · rw [halloc]
    exact hs.ahead
  · rw [halloc]
    exact hs.full

section

variable (hs : Stuck cfg s file) (fault : Fault)
include hs

/-- It cannot seal its segment. -/
theorem Stuck.seal (now : UInt64) :
    ∃ e, sealActiveLocked fault now s = (.error e, fault, s) := by
  have hne : file.bytes.length ≠ s.alloc.offset := Nat.ne_of_lt hs.ahead
  unfold sealActiveLocked
  simp only [hs.lookup, checkFooter, if_pos hne]
  exact ⟨_, rfl⟩

theorem Stuck.commitBatch (now : UInt64)
    (batch : List PendingWrite) : (commitBatch fault now batch s).2 = s := by
  have hfits : ¬ fits s.alloc batch = true := by
    intro hfits
    have hroom := (fits_iff.mp hfits).1
    have hfull := hs.full
    unfold required at hroom
    omega
  obtain ⟨e, hseal⟩ := hs.seal fault now
  unfold Store.commitBatch
  rw [rotate_of_not_fits fault now hfits, hseal]

theorem Stuck.mark (safe : UInt64) :
    writeIndexSafeLocked fault safe s = (.error .segmentFull, s) := by
  have htail : s.alloc.currentTail = .error .segmentFull := if_pos hs.full
  unfold writeIndexSafeLocked
  rw [htail]

end

theorem reserve_eq_error {a : Allocator} {framing storedLen : UInt32} {extent : ExtentID} {e : Err}
    (h : a.reserve framing extent storedLen = .error e) : e = .segmentFull := by
  unfold Allocator.reserve at h
  by_cases hcount : a.maxRecords ≤ a.recordCount
  · rw [if_pos hcount] at h
    exact (Except.error.inj h).symm
  rw [if_neg hcount] at h
  by_cases hroom : a.maxSegmentBytes < a.offset + framing.toNat
  · rw [if_pos hroom] at h
    exact (Except.error.inj h).symm
  · rw [if_neg hroom] at h
    cases h

theorem Stuck.appendRecord (hs : Stuck cfg s file) (fault : Fault) (now : UInt64)
    (hframing : batchCommitSize ≤ pw.framing.toNat) : (appendRecord fault now pw s).2 = s := by
  obtain ⟨e, hseal⟩ := hs.seal fault now
  unfold Store.appendRecord reserveOne
  rcases hres : s.alloc.reserve pw.framing pw.header.extentID pw.header.storedLen
    with e | ⟨off, alloc⟩
  · obtain rfl := reserve_eq_error hres
    rw [hseal]
  · have hroom := (reserve_eq_ok hres).2.1
    have hfull := hs.full
    omega

/-! ### Committing -/

/-- **A commit** keeps the store, whether it succeeds or fails, or is cut off. -/
theorem Stored.commitBatch (hs : Stored cfg s) (fault : Fault) (now : UInt64) (hne : batch ≠ [])
    (hframes : ∀ pw ∈ batch, ∃ r, pw.Frames r)
    (hbound : s.streamSeq.toNat + batch.length < seqBound) :
    Survives cfg fault (commitBatch fault now batch s).2 := by
  rcases hs with ⟨before, after, file, q, hs⟩ | ⟨file, hs⟩
  · by_cases hfault : fault = none
    · subst hfault
      rcases hs.commitBatch hne hframes hbound now with ⟨e, s', _, _, _, _, hcommit, hs', -⟩ |
        ⟨placed, s', _, _, b, _, _, hcommit, hs', -⟩ <;> rw [hcommit]
      · exact .inl (.inl ⟨_, _, _, _, hs'⟩)
      · exact .inl (.inl ⟨_, _, _, _, hs'⟩)
    · obtain ⟨_, _, _, _, _, _, _, _, _, htorn, -⟩ :=
        hs.commitBatch_cut hne hframes hbound fault now
      exact .inr ⟨hfault, htorn.onDisk⟩
  · rw [hs.commitBatch]
    exact .inl (.inr ⟨file, hs⟩)

/-! ### Appending one record -/

/-- **A reservation** takes room at the end of the active segment, or of the next one. -/
theorem Logging.reserveOne (hs : Logging cfg s before after file q) (fault : Fault) (now : UInt64)
    (pw : PendingWrite) :
    (∃ e fault' s', reserveOne fault now pw s = (.error e, fault', s') ∧ Survives cfg fault s') ∨
      ∃ fault' s0 alloc before' after' file' q',
        reserveOne fault now pw s = (.ok s0.alloc.offset, fault', { s0 with alloc }) ∧
        Logging cfg s0 before' after' file' q' ∧ Advanced s0.alloc alloc pw.framing.toNat 1 ∧
        s0.streamSeq = s.streamSeq ∧ (fault = none → fault' = none) := by
  unfold Store.reserveOne
  rcases hres : s.alloc.reserve pw.framing pw.header.extentID pw.header.storedLen
    with e | ⟨off, alloc⟩
  · obtain rfl := reserve_eq_error hres
    rcases sealActiveLocked_cases fault now hs.writing.lookup hs.writing.offset
      (hs.writing.fresh _ (Nat.lt_succ_self _)) with
      ⟨e, -, hseal⟩ | ⟨footer, r, fault', s', hseal, hcheck, hseals⟩
    · rw [hseal]
      exact .inl ⟨e, fault, s, rfl, .inl (.inl ⟨_, _, _, _, hs⟩)⟩
    rw [hseal]
    rcases hs.seals (checkFooter_magic hcheck) hseals with
      ⟨rfl, file1, hs1, hseq, hfault, -⟩ | ⟨e, rfl, hfault, _, _, _, _, _, _, _, htorn, -⟩
    · dsimp only
      rcases hres1 : s'.alloc.reserve pw.framing pw.header.extentID pw.header.storedLen with
        e | ⟨off, alloc⟩
      · exact .inl ⟨e, fault', s', rfl, .inl (.inl ⟨_, _, _, _, hs1⟩)⟩
      · obtain ⟨rfl, -, hadv⟩ := reserve_eq_ok hres1
        exact .inr ⟨fault', s', alloc, [], [], file1, 0, rfl, hs1, hadv, hseq, hfault⟩
    · exact .inl ⟨e, fault', s', rfl, .inr ⟨hfault, htorn.onDisk⟩⟩
  · obtain ⟨rfl, -, hadv⟩ := reserve_eq_ok hres
    exact .inr ⟨fault, s, alloc, before, after, file, q, rfl, hs, hadv, rfl, id⟩

/-- The writes of an append are those of a batch of one record. -/
theorem runOps_appendRecord (hr : pw.Frames r) {alloc : Allocator}
    (hid : alloc.segmentID = s.alloc.segmentID) (fault : Fault)
    (hseq : s.streamSeq.toNat + [r].length < 2 ^ 64)
    (hfile : s.files.lookup s.alloc.segmentID = some file)
    (hoff : s.alloc.offset = file.bytes.length) :
    let whole := (batchAt s.streamSeq [r] (cons_ne_nil r []) hseq).bytes s.alloc.segmentID
      s.streamID file.bytes.length
    let commitOffset := s.alloc.offset + pw.framing.toNat
    let commit := ({ s with alloc, streamSeq := s.streamSeq + 1 } : Store).batchCommit
      (placeFrom alloc.segmentID s.alloc.offset s.streamSeq [pw]) commitOffset
    let run := runOps [.write alloc.segmentID s.alloc.offset pw.bytes,
      .write alloc.segmentID commitOffset commit.encode, .sync alloc.segmentID] fault s.files
    ∃ t file', TornAppend s.alloc.segmentID s.files run.2.2 file whole t file' ∧
      (run.1 = true → t = whole ∧ file'.synced = file'.bytes) := by
  intro whole commitOffset commit run
  set b := batchAt s.streamSeq [r] (cons_ne_nil r []) hseq
  have hone : List.Forall₂ PendingWrite.Frames [pw] [r] := .cons hr .nil
  have hlen : (recordsBytes [r]).length = pw.framing.toNat := length_recordsBytes hone
  have hcommit : commit = b.commit s.alloc.segmentID s.streamID file.bytes.length := by
    have heq := batchCommit_placeFrom hone { s with alloc, streamSeq := s.streamSeq + 1 }
      s.streamSeq alloc.segmentID s.alloc.offset (cons_ne_nil r []) hseq rfl
    rw [hlen] at heq
    rw [← hoff, ← hid]
    exact heq
  have hwhole : whole = r.bytes ++ (commit.encode ++ []) := by
    rw [hcommit, append_nil]
    show recordsBytes [r] ++ _ = _
    rw [recordsBytes, flatMap_cons, flatMap_nil, append_nil]
  have hbars : ∀ op ∈ [FileOp.sync s.alloc.segmentID],
      op = .stage ∨ op = .sync s.alloc.segmentID := by simp
  obtain ⟨t, file', htorn, hok, -⟩ := runOps_torn
    (.write r.bytes (.write commit.encode (.nil _))) hbars fault hfile
  rw [← hwhole, ← hoff, ← hr.framing_eq, ← hr.bytes_eq] at htorn hok
  dsimp only [run]
  rw [hid]
  refine ⟨t, file', htorn, fun hrun => ?_⟩
  obtain ⟨ht, hsynced⟩ := hok hrun
  exact ⟨ht, by rw [hsynced mem_cons_self, htorn.bytes, ht]⟩

/-- **The compactor's append** keeps the store, whether it succeeds or fails, or is cut off. -/
theorem Logging.appendRecord (hs : Logging cfg s before after file q) (fault : Fault)
    (now : UInt64) (hr : pw.Frames r) (hbound : s.streamSeq.toNat + 1 < seqBound) :
    Survives cfg fault (appendRecord fault now pw s).2 := by
  unfold Store.appendRecord
  rcases hs.reserveOne fault now pw with ⟨e, fault', s', hres, hsurvives⟩ |
    ⟨fault', s0, alloc, before0, after0, file0, q0, hres, hs0, hadv, hstream, hnone⟩ <;> rw [hres]
  · exact hsurvives
  have hlong : 67 ≤ pw.framing.toNat := by
    rw [hr.framing_eq]
    exact r.length_bytes_ge
  dsimp only
  unfold Allocator.reserveCommit
  split_ifs with hfull
  · -- The record is reserved, and nothing of it is written.
    refine .inl (.inr ⟨file0, hs0.onDisk, ?_, ?_, hfull⟩)
    · rw [hadv.segmentID]
      exact hs0.writing.lookup
    · rw [hadv.offset, hs0.writing.offset]
      omega
  rw [← hstream] at hbound
  have hseq : s0.streamSeq.toNat + [r].length < 2 ^ 64 := lt_of_seqBound hbound
  set b := batchAt s0.streamSeq [r] (cons_ne_nil r []) hseq
  have hadv' : Advanced s0.alloc { alloc with offset := alloc.offset + batchCommitSize }
      (b.bytes s0.alloc.segmentID s0.streamID file0.bytes.length).length b.records.length := by
    have hlen : (recordsBytes [r]).length = pw.framing.toNat := length_recordsBytes (.cons hr .nil)
    refine ⟨?_, hadv.recordCount, hadv.segmentID, hadv.segmentClass, hadv.maxSegmentBytes,
      hadv.maxRecords⟩
    rw [Batch.length_bytes]
    show alloc.offset + batchCommitSize = s0.alloc.offset + ((recordsBytes [r]).length + _)
    rw [hadv.offset, hlen, Nat.add_assoc]
  obtain ⟨t, file', htorn, hok⟩ := runOps_appendRecord hr hadv'.segmentID fault' hseq
    hs0.writing.lookup hs0.writing.offset
  dsimp only [placeFrom] at htorn hok ⊢
  rcases hrun : runOps _ fault' s0.files with ⟨ok, fault'', files⟩
  rw [hrun] at htorn hok
  cases ok with
  | false =>
    refine .inr ⟨fun h => ?_, ?_⟩
    · rw [hnone h, runOps_none] at hrun
      exact absurd (Prod.mk.inj hrun).1.symm Bool.false_ne_true
    · have hcut : BatchAppended s0 { s0 with
          alloc := { alloc with offset := alloc.offset + batchCommitSize }
          streamSeq := s0.streamSeq + 1
          files } file0 b t file' :=
        ⟨⟨rfl, rfl, rfl, rfl, rfl, rfl⟩, rfl, htorn, hadv', rfl⟩
      exact (hs0.torn_batch hcut hbound).onDisk
  | true =>
    obtain ⟨ht, hsynced⟩ := hok rfl
    dsimp only
    generalize hs1 : publishRecoveryBatch _ _ _ _ = s1
    have hlogging : Logging cfg { s1 with alloc := s1.alloc.recordCommit (s0.streamSeq + 1) }
        before0 (after0 ++ [.batch b]) file' q0 := by
      have happ : BatchAppended s0 { s1 with alloc := s1.alloc.recordCommit (s0.streamSeq + 1) }
          file0 b t file' := by
        rw [← hs1, publishRecoveryBatch_eq]
        exact ⟨⟨rfl, rfl, rfl, rfl, rfl, rfl⟩, rfl, htorn, ⟨hadv'.offset, hadv'.recordCount,
          hadv'.segmentID, hadv'.segmentClass, hadv'.maxSegmentBytes, hadv'.maxRecords⟩, rfl⟩
      refine hs0.append happ ht hsynced (fun hpub => ?_) hbound
      have hall : AllPublished s1 := by
        rw [← hs1]
        exact allPublished_publish hpub.publishedSeq hpub.readyBatches rfl
      exact hall.congr rfl
    refine .inl (.inl ⟨before0, after0 ++ [.batch b], file', q0, ?_⟩)
    rcases enqueueApply_cases s1 [⟨pw.key, _⟩] with ⟨-, heq⟩ | ⟨-, heq⟩
    · rw [heq]
      exact hlogging.congr rfl
    · rw [heq]
      exact hlogging.congr rfl

theorem Stored.appendRecord (hs : Stored cfg s) (fault : Fault) (now : UInt64)
    (hframes : ∃ r, pw.Frames r) (hbound : s.streamSeq.toNat + 1 < seqBound) :
    Survives cfg fault (appendRecord fault now pw s).2 := by
  obtain ⟨r, hr⟩ := hframes
  rcases hs with ⟨before, after, file, q, hs⟩ | ⟨file, hs⟩
  · exact hs.appendRecord fault now hr hbound
  · have hlong : 67 ≤ pw.framing.toNat := by
      rw [hr.framing_eq]
      exact r.length_bytes_ge
    rw [hs.appendRecord fault now (by unfold batchCommitSize; omega)]
    exact .inl (.inr ⟨file, hs⟩)

/-! ### Openings -/

variable {disk : Disk} {clock : RecoveryClock} {cut : OpeningCut}

section

variable (ht : TornFile cfg s.files s.checkpoint s.alloc.segmentID segmentClass file before after
    rest [] q)
  (hbytes : file.bytes =
    segmentBytes cfg.streamID s.alloc.segmentID segmentClass (before ++ after ++ rest))
  (hoff : s.alloc.offset = file.bytes.length)
include ht hbytes hoff

/-- The marker of a flush can be cut off anywhere. -/
theorem TornFile.mark_onDisk {safe : UInt64} (fault : Fault) (hsafe : safe.toNat < seqBound) :
    OnDisk cfg (writeIndexSafeLocked fault safe s).2.files
      (writeIndexSafeLocked fault safe s).2.checkpoint := by
  rcases writeIndexSafeLocked_cases fault safe ht.lookup hoff with ⟨e, herr⟩ | ⟨t, file', happ, -⟩
  · rw [herr]
    exact ht.onDisk
  · rw [happ.unseen.toKept.checkpoint]
    exact (ht.mark hbytes happ.files hsafe).onDisk

/-- A flush that is cut off inside `New`. -/
theorem TornFile.flushUntil (hsafe : s.flushSeq.toNat < seqBound)
    (hcut : flushUntil cut s = some s') : OnDisk cfg s'.files s'.checkpoint := by
  unfold Store.flushUntil flushDrain at hcut
  dsimp only at hcut
  by_cases hmuts : s.overlay.drained = []
  · rw [if_pos hmuts] at hcut
    cases hcut
  rw [if_neg hmuts] at hcut
  dsimp only at hcut
  set s1 := applyNow { s with overlay := s.overlay.drain } s.overlay.drained
  have hmark := fun fault => TornFile.mark_onDisk (s := s1) ht hbytes hoff fault hsafe
  cases cut with
  | applied =>
    rw [← Option.some.inj hcut]
    exact ht.onDisk
  | mark fault =>
    rw [← Option.some.inj hcut]
    exact hmark (some fault)
  | marked =>
    dsimp only at hcut
    have hdisk := hmark none
    rcases hw : writeIndexSafeLocked none s.flushSeq s1 with ⟨e | cp, s2⟩
    · rw [hw] at hcut
      cases hcut
    · rw [hw] at hcut hdisk
      cases hcut
      exact hdisk
  | _ => cases hcut

end

theorem Replayed.persistUntil (hr : Replayed cfg disk h segmentClass before after rest q s file)
    (hcut : persistUntil clock now cut s = some s') : OnDisk cfg s'.files s'.checkpoint := by
  have hmax : maxSegmentID s.files = h := hr.torn.highest.maxSegmentID_eq
  have hfile : s.files.lookup (maxSegmentID s.files) = some file := by
    rw [hmax]
    exact hr.torn.lookup
  have hlen : segmentHeaderSize ≤ file.bytes.length := by
    rw [hr.bytes]
    exact length_segmentBytes_ge _ _
  unfold Store.persistUntil at hcut
  simp only [hfile, hmax, if_neg (Nat.not_lt.mpr hlen)] at hcut
  split_ifs at hcut
  set alloc := ((Allocator.new h (classForStream s.streamID) s.segmentSize now).consume
    (file.bytes.length - segmentHeaderSize)).recordCommit s.streamSeq
  refine TornFile.flushUntil (s := { s with alloc := alloc }) hr.torn hr.bytes ?_ ?_ hcut
  · show segmentHeaderSize + (file.bytes.length - segmentHeaderSize) = file.bytes.length
    omega
  · have hflush : s.flushSeq = s.streamSeq := hr.settled.published.flushSeq
    show s.flushSeq.toNat < seqBound
    rw [hflush]
    exact hr.seq_lt

/-- Creating the next segment, perhaps cut off. -/
theorem newActiveSegment_onDisk (fault : Fault) (now : UInt64) (segmentClass : SegmentClass)
    (hnext : s.nextSeg = h) (hhigh : Highest s.files h)
    (hcp : ∀ c ∈ s.checkpoint, c.segmentID ≤ h) (hdisk : OnDisk cfg s.files s.checkpoint) :
    OnDisk cfg (newActiveSegment fault now segmentClass s).2.2.files
      (newActiveSegment fault now segmentClass s).2.2.checkpoint := by
  obtain ⟨hothers, hnew⟩ := runOps_newFile (newSegmentHeader (h + 1) segmentClass).encode fault
    (hhigh.above (h + 1) (Nat.lt_succ_self h))
  have hleft : OnDisk cfg (runOps [.create (h + 1), .write (h + 1) 0
      (newSegmentHeader (h + 1) segmentClass).encode] fault s.files).2.2 s.checkpoint := by
    rcases hnew with ⟨hsame, -⟩ | ⟨u, hu, hfile, -⟩
    · rw [hsame]
      exact hdisk
    · have hfresh := fun id (hid : h + 1 < id) =>
        (hothers id (Nat.ne_of_gt hid)).trans (hhigh.above id (Nat.lt_of_succ_lt hid))
      exact (tornFile_new (Nat.succ_pos h) hfresh hfile hu fun c hc =>
        Nat.lt_succ_of_le (hcp c hc)).onDisk
  unfold newActiveSegment
  rw [hnext]
  dsimp only
  split
  · rename_i files hrun
    rw [hrun] at hleft
    exact hleft
  · rename_i files hrun
    rw [hrun] at hleft
    exact hleft

theorem newUntil_empty (hfiles : disk.files = ∅) (hcp : disk.checkpoint = none)
    (hcut : newUntil cfg clock now cut disk = some s) : OnDisk cfg s.files s.checkpoint := by
  let s0 : Store := .opening cfg.streamID cfg.segmentSize ∅ disk.index none
  have hdisk : OnDisk cfg s0.files s0.checkpoint := .inl ⟨rfl, rfl⟩
  have huntil : ∀ cut, persistUntil clock now cut s0 = none := by
    intro cut
    unfold persistUntil
    exact ite_self _
  unfold newUntil at hcut
  rw [hfiles, hcp, recoverActiveSegment_empty] at hcut
  by_cases hstart : clock.starting 0 = true
  · rw [if_pos hstart] at hcut
    cases hcut
  rw [if_neg hstart] at hcut
  cases cut with
  | recovered =>
    obtain rfl := Option.some.inj hcut
    exact hdisk
  | create fault =>
    dsimp only at hcut
    rw [persistRecoveredOverlay_empty] at hcut
    by_cases hbefore : clock.starting 1 = true
    · rw [if_pos hbefore] at hcut
      cases hcut
    · rw [if_neg hbefore] at hcut
      obtain rfl := Option.some.inj hcut
      exact newActiveSegment_onDisk (h := 0) _ now _ rfl ⟨.inl rfl, fun _ _ => rfl⟩
        (fun c hc => absurd hc (by simp [opening])) hdisk
  | _ => exact absurd ((huntil _).symm.trans hcut) (by simp)

/-- **An opening that is cut off** leaves a log of which the end may be missing. -/
theorem TornFile.newUntil {tail : List UInt8}
    (ht : TornFile cfg disk.files disk.checkpoint h segmentClass file before after rest tail q)
    (hlen : segmentHeaderSize ≤ file.bytes.length)
    (hroom : file.bytes.length + batchCommitSize ≤ cfg.size ∨
      (file.bytes.length : Int) ≤ (recoverOptions cfg clock disk.checkpoint h).safeOffset)
    (hcut : newUntil cfg clock now cut disk = some s) : OnDisk cfg s.files s.checkpoint := by
  unfold Store.newUntil at hcut
  rcases ht.replays_or_exceeds clock hlen with ⟨s1, file1, rest', hrec, hr, hle⟩ | ⟨hspent, -⟩
  · rw [hrec] at hcut
    cases cut with
    | recovered =>
      cases hcut
      exact hr.torn.onDisk
    | create fault =>
      dsimp only at hcut
      rcases hr.persist clock now (ht.room hr hle hroom) with
        ⟨s2, hpersist, -, _, _, _, _, _, ht2⟩ | ⟨hlate, -⟩
      · rw [hpersist] at hcut
        cases hcut
        exact newActiveSegment_onDisk _ now _ ht2.highest.maxSegmentID_eq ht2.highest
          ht2.boundary.segmentID_le ht2.onDisk
      · rw [hlate] at hcut
        cases hcut
    | _ => exact hr.persistUntil hcut
  · rw [hspent] at hcut
    cases hcut

end Stored

end Store

end Nufs.Storage
