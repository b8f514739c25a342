/-
Commits that fail, and the commits behind them.

A commit reserves its offsets before it writes and does not give them back.  If a
record or the commit record is not written in full, a hole is left that recovery
does not pass, so later commits of the segment are lost with it, and the segment
can no longer be sealed if the hole is at its end.  If the failure comes behind the
write of the commit record, or before anything is reserved, nothing is endangered.
-/
import Nufs.Proofs.Storage.Visible
import Nufs.Proofs.Storage.Writing

namespace Nufs.Storage

open ByteFile List

/-! ### Runs of commits -/

/-- One call of `commitBatch`, with the fault it meets. -/
structure Call where
  fault : Fault
  now : UInt64
  batch : List PendingWrite

/-- An acknowledged batch: its segment and its placed writes. -/
structure Ack where
  segID : SegmentID
  placed : List PlacedWrite

namespace Store

/-- Calls one after the other: what was acknowledged, and the store behind them. -/
def runCalls : List Call → Store → List Ack × Store
  | [], s => ([], s)
  | c :: calls, s =>
    match commitBatch c.fault c.now c.batch s with
    | (.error _, s) => runCalls calls s
    | (.ok placed, s) =>
      let r := runCalls calls s
      (⟨s.alloc.segmentID, placed⟩ :: r.1, r.2)

/--
The call cannot endanger later ones: its writes are framed as recovery expects, the
stream's sequence does not wrap, and its fault, if it meets one, comes behind the
write of the commit record or before the first byte of a seal.  Sealing and opening
the next segment take five operations.
-/
def Harmless (c : Call) (s : Store) : Prop :=
  c.batch ≠ [] ∧ (∀ pw ∈ c.batch, ∃ r, pw.Frames r) ∧
    s.streamSeq.toNat + c.batch.length < 2 ^ 64 ∧
    (c.fault.spares (c.batch.length + 2 + if fits s.alloc c.batch then 0 else 5) = true ∨
      fits s.alloc c.batch = false ∧ c.fault = some (0, 0))

/-- Every call of the run is harmless where it is made. -/
def HarmlessRun : List Call → Store → Prop
  | [], _ => True
  | c :: calls, s =>
    Harmless c s ∧ HarmlessRun calls (commitBatch c.fault c.now c.batch s).2

/-! ### The invariant -/

/-- The records of a segment's entries. -/
def logCount (s : Store) (segID : SegmentID) (es : List LogEntry) : Nat :=
  (logDescriptors segID s.streamID segmentHeaderSize es).length

/-- The batch is among the first entries of a log. -/
def InLog (a : Ack) (s : Store) (es : List LogEntry) : Prop :=
  es ≠ [] ∧
    a.placed.map PlacedWrite.descriptor <:+:
      logDescriptors a.segID s.streamID segmentHeaderSize es

/-- The batch is durable in a sealed segment with at most `n` records. -/
def SealedIn (s : Store) (n : Nat) (a : Ack) : Prop :=
  ∃ segmentClass file kept tail, s.files.lookup a.segID = some file ∧
    LogFile s.streamID a.segID segmentClass file kept [] tail ∧
    logCount s a.segID kept ≤ n ∧ InLog a s kept

/-- The store writes a log, and every acknowledged batch is durable in the log of its segment;
no log has more than `n` records. -/
structure AcksKept (s : Store) (acks : List Ack) (n : Nat) : Prop where
  active : ∃ kept rest file, Writing s kept rest file ∧
    logCount s s.alloc.segmentID (kept ++ rest) ≤ n ∧
    ∀ a ∈ acks, a.segID = s.alloc.segmentID → InLog a s kept
  sealed : ∀ a ∈ acks, a.segID ≠ s.alloc.segmentID → SealedIn s n a

variable {s : Store} {acks : List Ack} {n : Nat} {kept rest : List LogEntry} {file : File}

theorem InLog.append {a : Ack} {es : List LogEntry} (h : InLog a s es) (es' : List LogEntry) :
    InLog a s (es ++ es') := by
  refine ⟨by simp [h.1], ?_⟩
  rw [logDescriptors_append]
  exact h.2.trans (prefix_append _ _).isInfix

/-- A sealed segment that is left alone. -/
theorem SealedIn.mono {s' : Store} {a : Ack} {m : Nat} (h : SealedIn s m a)
    (hfile : s'.files.lookup a.segID = s.files.lookup a.segID) (hstream : s'.streamID = s.streamID)
    (hle : m ≤ n) : SealedIn s' n a := by
  unfold SealedIn logCount InLog at h ⊢
  rw [hfile, hstream]
  obtain ⟨cls, file, kept, tail, hfile, hlog, hcount, hin⟩ := h
  exact ⟨cls, file, kept, tail, hfile, hlog, hcount.trans hle, hin⟩

variable {batch : List PendingWrite} {files : Dir} {footer : SegmentFooter}

theorem frames_of_forall (h : ∀ pw ∈ batch, ∃ r, pw.Frames r) :
    ∃ rs, List.Forall₂ PendingWrite.Frames batch rs := by
  induction batch with
  | nil => exact ⟨[], .nil⟩
  | cons pw batch ih =>
    obtain ⟨r, hr⟩ := h pw (by simp)
    obtain ⟨rs, hrs⟩ := ih fun pw hpw => h pw (by simp [hpw])
    exact ⟨r :: rs, .cons hr hrs⟩

/-- Frames for a whole batch. -/
theorem exists_frames (hne : batch ≠ []) (hframes : ∀ pw ∈ batch, ∃ r, pw.Frames r) :
    ∃ rs, List.Forall₂ PendingWrite.Frames batch rs ∧ rs ≠ [] ∧ batch.length = rs.length := by
  obtain ⟨rs, hrs⟩ := frames_of_forall hframes
  refine ⟨rs, hrs, ?_, hrs.length_eq⟩
  rintro rfl
  exact hne (List.forall₂_nil_right_iff.mp hrs)

section Kept

variable (hw : Writing s kept rest file)
  (hcount : logCount s s.alloc.segmentID (kept ++ rest) ≤ n)
  (hacks : ∀ a ∈ acks, a.segID = s.alloc.segmentID → InLog a s kept)
  (hsealed : ∀ a ∈ acks, a.segID ≠ s.alloc.segmentID → SealedIn s n a)
include hw hcount hacks hsealed

/-- Sealing keeps the acknowledged batches: the active log becomes a sealed one. -/
theorem AcksKept.sealed_dir (now : UInt64) (hmagic : footer.magic = segmentMagic)
    (hdir : SealedDir s files file footer
      (some (newSegmentHeader (s.nextSeg + 1) s.alloc.segmentClass).encode)) :
    AcksKept (s.afterSeal files now) acks n := by
  have hnew : ∀ id file, s.files.lookup id = some file → id ≠ s.nextSeg + 1 := by
    rintro id file hid rfl
    rw [hw.fresh _ (Nat.lt_succ_self _)] at hid
    simp at hid
  refine ⟨⟨[], [], _, hw.sealed now hdir, Nat.zero_le _, ?_⟩, ?_⟩
  · -- No acknowledged batch is in the new segment.
    intro a ha heq
    have heq' : a.segID = s.nextSeg + 1 := heq
    by_cases hseg : a.segID = s.alloc.segmentID
    · exact absurd (heq'.symm.trans hseg) (hnew _ _ hw.lookup).symm
    · obtain ⟨-, file', -, -, hfile', -⟩ := hsealed a ha hseg
      exact absurd heq' (hnew _ _ hfile')
  · intro a ha _
    by_cases hseg : a.segID = s.alloc.segmentID
    · refine ⟨s.alloc.segmentClass, ⟨file.bytes ++ footer.encode, file.bytes ++ footer.encode⟩,
        kept ++ rest, footer.encode, ?_, ?_, ?_, (hacks a ha hseg).append rest⟩
      · rw [hseg]
        exact hdir.old
      · rw [hseg]
        exact hw.sealed_log footer hmagic
      · rw [hseg]
        exact hcount
    · obtain ⟨-, file', -, -, hfile', -⟩ := hsealed a ha hseg
      exact (hsealed a ha hseg).mono (hdir.others _ hseg (hnew _ _ hfile')) rfl le_rfl

/-- A batch whose bytes are all written keeps the acknowledged batches; if it is durable it may
be acknowledged itself. -/
theorem AcksKept.append {s' : Store} {file' : File} {rs : List FramedRecord} {hne : rs ≠ []}
    {hseq : s.streamSeq.toNat + rs.length < 2 ^ 64} {t : List UInt8}
    (happ : BatchAppended s s' file (batchAt s.streamSeq rs hne hseq) t file')
    (ht : t = (batchAt s.streamSeq rs hne hseq).bytes s.alloc.segmentID s.streamID
      file.bytes.length) :
    AcksKept s' acks (n + rs.length) ∧ ∀ placed : List PlacedWrite, file'.synced = file'.bytes →
        placed.map PlacedWrite.descriptor = recordsDescriptors s.alloc.segmentID s.alloc.offset rs →
        AcksKept s' (⟨s'.alloc.segmentID, placed⟩ :: acks) (n + rs.length) := by
  set b := batchAt s.streamSeq rs hne hseq
  obtain ⟨hwhole, hpart⟩ := hw.append happ ht
  have hsegID : s'.alloc.segmentID = s.alloc.segmentID := happ.alloc.segmentID
  have hstream : s'.streamID = s.streamID := happ.kept.streamID
  have hdesc : logDescriptors s.alloc.segmentID s.streamID segmentHeaderSize
      (kept ++ rest ++ [.batch b]) =
      logDescriptors s.alloc.segmentID s.streamID segmentHeaderSize (kept ++ rest) ++
        recordsDescriptors s.alloc.segmentID s.alloc.offset rs := by
    rw [logDescriptors_append, hw.offset, hw.bytes_eq, length_segmentBytes]
    simp [logDescriptors, LogEntry.descriptors, b, batchAt]
  have hcount' : logCount s' s'.alloc.segmentID (kept ++ rest ++ [.batch b]) ≤ n + rs.length := by
    unfold logCount at hcount ⊢
    rw [hsegID, hstream, hdesc, length_append, length_recordsDescriptors]
    omega
  have hin : ∀ (a : Ack) (es : List LogEntry), InLog a s es → InLog a s' es := by
    intro a es h
    unfold InLog at h ⊢
    rwa [hstream]
  have hsealed' : ∀ a ∈ acks, a.segID ≠ s'.alloc.segmentID → SealedIn s' (n + rs.length) a := by
    intro a ha hne'
    rw [hsegID] at hne'
    exact (hsealed a ha hne').mono (happ.files.others _ hne') hstream (Nat.le_add_right _ _)
  have hdurable : file'.synced = file'.bytes → AcksKept s' acks (n + rs.length) := fun hsynced =>
    ⟨⟨_, [], _, hwhole hsynced, by rwa [append_nil], fun a ha heq =>
      hin a _ (((hacks a ha (heq.trans hsegID)).append rest).append _)⟩, hsealed'⟩
  refine ⟨?_, fun placed hsynced hplaced => ?_⟩
  · rcases happ.files.synced with hsynced | ⟨hsynced, -⟩
    · exact ⟨⟨kept, rest ++ [.batch b], _, hpart hsynced, by rwa [← append_assoc],
        fun a ha heq => hin a _ (hacks a ha (heq.trans hsegID))⟩, hsealed'⟩
    · refine hdurable ?_
      rw [hsynced, happ.files.bytes, ht]
  refine ⟨⟨_, [], _, hwhole hsynced, by rwa [append_nil], ?_⟩, ?_⟩
  · intro a ha heq
    rcases mem_cons.mp ha with rfl | ha
    · have hinfix : recordsDescriptors s.alloc.segmentID s.alloc.offset rs <:+:
          logDescriptors s.alloc.segmentID s.streamID segmentHeaderSize
            (kept ++ rest ++ [.batch b]) := by
        rw [hdesc]
        exact (suffix_append _ _).isInfix
      refine ⟨by simp, ?_⟩
      simpa only [hstream, hsegID, hplaced] using hinfix
    · exact hin a _ (((hacks a ha (heq.trans hsegID)).append rest).append _)
  · intro a ha hne'
    rcases mem_cons.mp ha with rfl | ha
    · exact absurd rfl hne'
    · exact hsealed' a ha hne'

end Kept

theorem AcksKept.mono {m : Nat} (h : AcksKept s acks m) (hle : m ≤ n) : AcksKept s acks n := by
  obtain ⟨⟨kept, rest, file, hw, hcount, hacks⟩, hsealed⟩ := h
  exact ⟨⟨kept, rest, file, hw, hcount.trans hle, hacks⟩,
    fun a ha hne => (hsealed a ha hne).mono rfl rfl hle⟩

/-- Only what the files hold matters. -/
theorem AcksKept.congr_files (h : AcksKept s acks n)
    (hfiles : ∀ id, files.lookup id = s.files.lookup id) : AcksKept { s with files } acks n := by
  obtain ⟨⟨kept, rest, file, hw, hcount, hacks⟩, hsealed⟩ := h
  refine ⟨⟨kept, rest, file, ⟨(hfiles _).trans hw.lookup, hw.log, hw.offset, hw.seq_le, hw.nextSeg,
    fun id hid => (hfiles id).trans (hw.fresh id hid)⟩, hcount, hacks⟩, fun a ha hne => ?_⟩
  exact (hsealed a ha hne).mono (hfiles _) rfl le_rfl

/-- A fault before the first byte of the footer leaves the directory as it was. -/
theorem tornAppend_nil {id : Nat} {d d' : Dir} {f : File} (hfile : d.lookup id = some f)
    (h : TornAppend id d d' f footer.encode [] file) (id' : Nat) :
    d'.lookup id' = d.lookup id' := by
  by_cases hid : id' = id
  · subst hid
    have hbytes : file.bytes = f.bytes := by rw [h.bytes, append_nil]
    have hsynced : file.synced = f.synced := by
      rcases h.synced with hsynced | ⟨-, hnil⟩
      · exact hsynced
      · have hlen : footer.encode.length = 65 := footer.length_encode
        rw [← hnil] at hlen
        simp at hlen
    obtain ⟨bytes, synced⟩ := file
    rw [h.lookup, hfile]
    exact congrArg some (congrArg₂ File.mk hbytes hsynced)
  · exact h.others id' hid

/-- What is acknowledged once a call has returned. -/
def acksAfter (acks : List Ack) (r : Except Err (List PlacedWrite) × Store) : List Ack :=
  match r.1 with
  | .error _ => acks
  | .ok placed => ⟨r.2.alloc.segmentID, placed⟩ :: acks

/-- A batch that fits and whose fault spares its bytes. -/
theorem AcksKept.appendBatch (h : AcksKept s acks n) {fault : Fault} (hne : batch ≠ [])
    (hframes : ∀ pw ∈ batch, ∃ r, pw.Frames r) (hseq : s.streamSeq.toNat + batch.length < 2 ^ 64)
    (hfits : fits s.alloc batch = true) (hspares : fault.spares (batch.length + 2) = true) :
    AcksKept (appendBatch fault batch s).2 (acksAfter acks (Store.appendBatch fault batch s))
      (n + batch.length) := by
  obtain ⟨⟨kept, rest, file, hw, hcount, hacks⟩, hsealed⟩ := h
  obtain ⟨rs, hrs, hne', hlen⟩ := exists_frames hne hframes
  obtain ⟨t, file', happ, hwhole, hresult⟩ :=
    appendBatch_spec fault hrs hne' (hlen ▸ hseq) hfits hw.lookup hw.offset
  obtain ⟨hkeep, hack⟩ := AcksKept.append hw hcount hacks hsealed happ (hwhole hspares)
  rw [hlen]
  rcases hresult with ⟨hok, -, hsynced, -⟩ | ⟨e, herr, -⟩
  · have hafter : acksAfter acks (Store.appendBatch fault batch s) = _ :=
      congrArg (fun r => match r with
        | .error _ => acks
        | .ok placed => ⟨(Store.appendBatch fault batch s).2.alloc.segmentID, placed⟩ :: acks) hok
    rw [hafter]
    exact hack _ hsynced (descriptor_placeFrom hrs _ _ _)
  · have hafter : acksAfter acks (Store.appendBatch fault batch s) = acks := by
      simp only [acksAfter, herr]
    rw [hafter]
    exact hkeep

/-- **One call.**  A harmless call keeps what was acknowledged, and adds its batch if it
succeeds. -/
theorem AcksKept.commitBatch (h : AcksKept s acks n) (c : Call) (hc : Harmless c s) :
    AcksKept (commitBatch c.fault c.now c.batch s).2
      (acksAfter acks (Store.commitBatch c.fault c.now c.batch s)) (n + c.batch.length) := by
  obtain ⟨hne, hframes, hseq, hfault⟩ := hc
  obtain ⟨⟨kept, rest, file, hw, hcount, hacks⟩, hsealed⟩ := id h
  rcases rotate_cases c.fault c.now c.batch hw with ⟨hfits, hrot⟩ | ⟨hfull, hrot⟩
  · have hspares : c.fault.spares (c.batch.length + 2) = true := by
      simpa [hfits] using hfault
    have hcommit : Store.commitBatch c.fault c.now c.batch s =
        Store.appendBatch c.fault c.batch s := by
      rw [Store.commitBatch, hrot]
    rw [hcommit]
    exact h.appendBatch hne hframes hseq hfits hspares
  · have herror : ∀ {e fault' s'}, rotate c.fault c.now c.batch s = (.error e, fault', s') →
        AcksKept s' acks n →
        AcksKept (Store.commitBatch c.fault c.now c.batch s).2
          (acksAfter acks (Store.commitBatch c.fault c.now c.batch s)) (n + c.batch.length) := by
      intro e fault' s' hrot' hkept'
      rw [Store.commitBatch, hrot']
      exact hkept'.mono (Nat.le_add_right _ _)
    rw [hfull, if_neg Bool.false_ne_true] at hfault
    have hfirst : c.fault.spares 5 = false → c.fault = some (0, 0) := by
      intro hspares
      rcases hfault with hlate | ⟨-, hzero⟩
      · have hspares' := Fault.spares_mono (show 5 ≤ c.batch.length + 2 + 5 by omega) hlate
        rw [hspares] at hspares'
        simp at hspares'
      · exact hzero
    rcases hrot with ⟨e, hrot⟩ | ⟨footer, r, fault', s', hmagic, hseals, hrot⟩
    · exact herror hrot h
    cases hseals with
    | footer hspares htorn ht =>
      -- The fault hits the footer: only its first byte is harmless.
      obtain rfl : _ = [] := by simpa using ht 0 (hfirst hspares)
      exact herror hrot (h.congr_files (tornAppend_nil hw.lookup htorn))
    | header hspares hne' => exact absurd (hfirst hspares) (hne' 0)
    | done hspares hdir =>
      have hnew := AcksKept.sealed_dir hw hcount hacks hsealed c.now hmagic hdir
      dsimp only [Except.bind] at hrot
      split_ifs at hrot with hfits
      · have hlate : c.fault.spares (c.batch.length + 2 + 5) = true := by
          rcases hfault with hlate | ⟨-, hzero⟩
          · exact hlate
          · rw [hzero] at hspares
            simp [Fault.spares] at hspares
        rw [Store.commitBatch, hrot]
        refine hnew.appendBatch hne hframes hseq hfits ?_
        rw [Fault.spares_after hspares, Nat.add_comm]
        exact hlate
      · exact herror hrot hnew

/-! ### Runs -/

/-- **A run of harmless calls** keeps every batch it acknowledges. -/
theorem AcksKept.runCalls (h : AcksKept s acks n) (calls : List Call) (hrun : HarmlessRun calls s) :
    ∃ acks', AcksKept (runCalls calls s).2 acks' (n + (calls.map fun c => c.batch.length).sum) ∧
      ∀ a, a ∈ acks ∨ a ∈ (Store.runCalls calls s).1 → a ∈ acks' := by
  induction calls generalizing s acks n with
  | nil => exact ⟨acks, by simpa [Store.runCalls] using h, by simp [Store.runCalls]⟩
  | cons c calls ih =>
    obtain ⟨hc, hrest⟩ := hrun
    have hstep := h.commitBatch c hc
    rcases hcommit : Store.commitBatch c.fault c.now c.batch s with ⟨e | placed, s'⟩
    all_goals
      rw [hcommit] at hstep hrest
      obtain ⟨acks', hkept, hmem⟩ := ih hstep hrest
      rw [map_cons, sum_cons, ← Nat.add_assoc]
      refine ⟨acks', by simpa only [Store.runCalls, hcommit] using hkept, ?_⟩
      intro a ha
      apply hmem a
      simp only [Store.runCalls, hcommit, mem_cons] at ha
      simp only [acksAfter, mem_cons]
      tauto

theorem runCalls_streamID (calls : List Call) (s : Store) :
    (runCalls calls s).2.streamID = s.streamID := by
  induction calls generalizing s with
  | nil => rfl
  | cons c calls ih =>
    have hstep := (commitBatch_commits c.fault c.now c.batch s).kept.streamID
    rcases hcommit : commitBatch c.fault c.now c.batch s with ⟨e | placed, s'⟩
    all_goals
      rw [hcommit] at hstep
      simp only [runCalls, hcommit]
      exact (ih s').trans hstep

/-- A store that writes a log can be sealed, unless the checksum happens to be the reserved
zero. -/
theorem Writing.seal_ok (h : Writing s kept rest file) (now : UInt64) (hcrc : crc32c (file.bytes ++
      (sealFooter s.alloc now).encode.take segmentFooterCRCOffset) ≠ 0) :
    (sealActiveLocked none now s).1 = .ok () := by
  have hheader : segmentHeaderSize ≤ file.bytes.length := by
    rw [h.bytes_eq, length_segmentBytes]
    exact Nat.le_add_right _ _
  rcases sealActiveLocked_cases none now h.lookup h.offset (h.fresh _ (Nat.lt_succ_self _)) with
    ⟨e, herr, -⟩ | ⟨footer, r, fault', s', heq, -, hseals⟩
  · obtain ⟨footer, hok⟩ := exists_checkFooter h.offset hheader hcrc
    rw [hok] at herr
    simp at herr
  · cases hseals with
    | footer hspares | header hspares => simp [Fault.spares] at hspares
    | done => rw [heq]

/--
**Failed batches do not endanger later ones**, in a run of calls that are all
harmless where they are made.  The run starts from any store that is writing a
log.  Whatever first part of a segment's unsynced bytes a crash keeps, recovery of
it succeeds and replays every batch acknowledged in that segment; and the active
segment can be sealed.
-/
theorem acked_batches_replayed (s : Store) (kept rest : List LogEntry) (file : File)
    (hwriting : Writing s kept rest file) (calls : List Call) (hrun : HarmlessRun calls s)
    (opts : RecoverOptions) (hstream : opts.streamID = s.streamID)
    (hclock : ∀ n, opts.expired n = false)
    (hoffset : 0 ≤ opts.safeOffset ∧ opts.safeOffset ≤ segmentHeaderSize)
    (hsafeSeq : opts.safeSeq = 0) (hrecords : logCount s s.alloc.segmentID (kept ++ rest) +
      (calls.map fun c => c.batch.length).sum ≤ recoveryRecordLimit opts) :
    (∀ a ∈ (runCalls calls s).1, ∃ file, (runCalls calls s).2.files.lookup a.segID = some file ∧
        ∀ img, file.synced <+: img → img <+: file.bytes →
          img.length ≤ (recoveryByteLimits opts).1 → img.length ≤ (recoveryByteLimits opts).2 →
          (recoverFromSegmentLog a.segID opts (some collect) [] img).err = none ∧
            a.placed.map PlacedWrite.descriptor <:+:
              (recoverFromSegmentLog a.segID opts (some collect) [] img).sink) ∧
      ∃ file, (runCalls calls s).2.files.lookup (runCalls calls s).2.alloc.segmentID = some file ∧
        ∀ now, crc32c (file.bytes ++ (sealFooter (runCalls calls s).2.alloc now).encode.take
            segmentFooterCRCOffset) ≠ 0 →
          (sealActiveLocked none now (runCalls calls s).2).1 = .ok () := by
  have hinit : AcksKept s [] (logCount s s.alloc.segmentID (kept ++ rest)) :=
    ⟨⟨kept, rest, file, hwriting, le_rfl, by simp⟩, by simp⟩
  obtain ⟨acks, hkept, hmem⟩ := hinit.runCalls calls hrun
  have hstream' : opts.streamID = (runCalls calls s).2.streamID := by
    rw [runCalls_streamID, hstream]
  obtain ⟨⟨kept', rest', file', hw, hcount, hacks⟩, hsealed⟩ := hkept
  refine ⟨fun a ha => ?_, file', hw.lookup, fun now hcrc => hw.seal_ok now hcrc⟩
  obtain ⟨cls, g, kept1, rest1, tail, hg, hlog, hcount1, hin⟩ : ∃ cls g kept rest tail,
      (runCalls calls s).2.files.lookup a.segID = some g ∧
      LogFile (runCalls calls s).2.streamID a.segID cls g kept rest tail ∧
      logCount (runCalls calls s).2 a.segID (kept ++ rest) ≤ recoveryRecordLimit opts ∧
      InLog a (runCalls calls s).2 kept := by
    by_cases hseg : a.segID = (runCalls calls s).2.alloc.segmentID
    · have hin := hacks a (hmem a (.inr ha)) hseg
      rw [hseg]
      exact ⟨_, file', kept', rest', _, hw.lookup, hw.log, by omega, hin⟩
    · obtain ⟨cls, g, kept'', tail, hg, hlog, hcount', hin⟩ := hsealed a (hmem a (.inr ha)) hseg
      exact ⟨cls, g, kept'', [], tail, hg, hlog, by rw [append_nil]; omega, hin⟩
  refine ⟨g, hg, fun img hsynced hbytes hreplay htrailing => ?_⟩
  obtain ⟨more, herr, hsink⟩ := hlog.recover hin.1 hsynced hbytes hstream' hclock hoffset
    hsafeSeq hcount1 hreplay htrailing
  refine ⟨herr, ?_⟩
  rw [hsink]
  exact hin.2.trans (prefix_append _ _).isInfix

/-! ### A run that meets the conditions, and one that does not -/

namespace SampleCalls

/-- A store on an empty disk. -/
def start : Store :=
  (newActiveSegment none 0 .data (.opening 1 4096 ∅ ∅ none)).2.2

/-- A batch of one delete, with a fault. -/
def call (fault : Fault) : Call :=
  ⟨fault, 0, [deletePending (7, 1) ⟨1, 22, 0, 0, .durable, 0⟩]⟩

theorem frames : ∀ pw ∈ (call none).batch, ∃ r, pw.Frames r := by
  intro pw hpw
  obtain rfl := mem_singleton.mp hpw
  exact ⟨.delete 7 1, rfl, rfl, rfl, by decide +kernel⟩

end SampleCalls

open SampleCalls in
/-- The barrier of the first call fails, the second call is acknowledged: it is replayed. -/
theorem acked_batches_replayed_sync_fails :
    (runCalls [call (some (4, 0)), call none] start).1.length = 1 ∧
      ∀ a ∈ (runCalls [call (some (4, 0)), call none] start).1, ∃ file,
        (runCalls [call (some (4, 0)), call none] start).2.files.lookup a.segID = some file ∧
        ∀ img, file.synced <+: img → img <+: file.bytes →
          img.length ≤ (recoveryByteLimits SampleLog.opts).1 →
          img.length ≤ (recoveryByteLimits SampleLog.opts).2 →
          (recoverFromSegmentLog a.segID SampleLog.opts (some collect) [] img).err = none ∧
            a.placed.map PlacedWrite.descriptor <:+:
              (recoverFromSegmentLog a.segID SampleLog.opts (some collect) [] img).sink := by
  have hwriting : Writing start [] [] _ :=
    (newActiveSegment_writing 0 .data (s := .opening 1 4096 ∅ ∅ none) fun id _ => rfl).2.1
  refine ⟨by decide +kernel,
    (acked_batches_replayed start [] [] _ hwriting [call (some (4, 0)), call none] ?_
      SampleLog.opts rfl (fun _ => rfl) (by decide) rfl (by decide +kernel)).1⟩
  exact ⟨⟨by simp [call], frames, by decide +kernel, .inl (by decide +kernel)⟩,
    ⟨by simp [call], frames, by decide +kernel, .inl rfl⟩, trivial⟩

open SampleCalls in
/-- The first call fails five bytes into its record.  The second is acknowledged and durable, and
recovery replays nothing; a segment that ends in such a hole cannot be sealed. -/
theorem failed_batch_hides_acked_batch :
    (runCalls [call (some (0, 5)), call none] start).1.length = 1 ∧
      ((runCalls [call (some (0, 5)), call none] start).2.files.lookup 1).map
          (fun file => (recoverFromSegmentLog 1 SampleLog.opts (some collect) [] file.synced).sink) =
        some [] ∧ (sealActiveLocked none 0 (runCalls [call (some (0, 5))] start).2).1 ≠ .ok () := by
  refine ⟨?_, ?_, ?_⟩
  · decide +kernel
  · decide +kernel
  · decide +kernel

end Store

end Nufs.Storage
