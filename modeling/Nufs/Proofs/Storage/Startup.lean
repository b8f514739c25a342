/-
What `New` needs of a crash image.

What is on disk is a log of which the end may be missing.  Recovery replays it exactly,
or finds its budget spent: up to there it takes the steps it would take without a
deadline, and a limit can only be exceeded if it is below what a file of that size can
hold.  So `New` fails on such a disk for lack of a whole header, for lack of room for
the marker it writes, or because a limit or the deadline is exceeded.
-/
import Nufs.Proofs.Storage.Logging

namespace Nufs.Storage

open ByteFile Layout List

/-- No record is shorter. -/
def minRecordSize : Nat := recordHeaderSize + recordTrailerSize

/-- A limit of the recovery is below what a file of this size can hold, or the deadline passes. -/
def RecoverOptions.Exceeded (opts : RecoverOptions) (size : Nat) : Prop :=
  (∃ n, opts.expired n = true) ∨ (recoveryByteLimits opts).1 < size ∨
    (recoveryByteLimits opts).2 < size ∨
    minRecordSize * recoveryRecordLimit opts < size

theorem exceeded_of_not_within {opts : RecoverOptions} {records bytes size : Nat}
    (hrecords : minRecordSize * records ≤ size) (hbytes : bytes ≤ size)
    (h : ¬ Within opts records bytes bytes) : opts.Exceeded size := by
  unfold Within at h
  by_cases hreplayed : size ≤ (recoveryByteLimits opts).1
  · by_cases htrailing : size ≤ (recoveryByteLimits opts).2
    · have hlimit : recoveryRecordLimit opts < records := by
        by_contra hle
        exact h ⟨Nat.le_of_not_lt hle, hbytes.trans hreplayed, hbytes.trans htrailing⟩
      have hmul : minRecordSize * (recoveryRecordLimit opts + 1) ≤ minRecordSize * records :=
        Nat.mul_le_mul_left _ hlimit
      refine .inr (.inr (.inr ?_))
      unfold minRecordSize at *
      simp only [recordHeaderSize, recordTrailerSize] at *
      omega
    · exact .inr (.inr (.inl (Nat.lt_of_not_le htrailing)))
  · exact .inr (.inl (Nat.lt_of_not_le hreplayed))

/-! ### The deadline -/

section Deadline

/-- The same options without a deadline. -/
def RecoverOptions.patient (opts : RecoverOptions) : RecoverOptions :=
  { opts with expired := fun _ => false }

variable {σ : Type} (segID : SegmentID) (opts : RecoverOptions)
  (apply : CommitDescriptor → σ → Except Err σ)

/-- A part of the recovery does what it does without a deadline, or the deadline has passed. -/
def Hurries {α : Type} (r r' : Except Err α × RecoveryState σ) : Prop :=
  r = r' ∨ (∃ s, r = (.error .recoveryBudgetExceeded, s)) ∧ ∃ n, opts.expired n = true

theorem hurries_applyPending (committedEnd : Nat) (seq : UInt64) (ds : List CommitDescriptor)
    (s : RecoveryState σ) : Hurries opts (applyPending opts apply committedEnd seq ds s)
      (applyPending opts.patient apply committedEnd seq ds s) := by
  induction ds generalizing s with
  | nil => exact .inl rfl
  | cons d ds ih =>
    simp only [applyPending, RecoverOptions.patient, Bool.false_eq_true, if_false]
    by_cases hexp : opts.expired s.clockReads = true
    · exact .inr ⟨⟨s, if_pos hexp⟩, _, hexp⟩
    rw [if_neg hexp]
    cases apply d s.sink with
    | error e => exact .inl rfl
    | ok sink => exact ih _

variable (f : List UInt8) (off : Nat) (s : RecoveryState σ)

theorem hurries_parseCommit : Hurries opts (parseCommit opts (some apply) f off s)
    (parseCommit opts.patient (some apply) f off s) := by
  have hcheck : checkCommit opts.patient f off s = checkCommit opts f off s := rfl
  have hadd : ∀ n (s : RecoveryState σ), addReplayBytes opts.patient n s =
      addReplayBytes opts n s := fun _ _ => rfl
  have hsafe : opts.patient.safeSeq = opts.safeSeq := rfl
  have hlooks : ((range s.pending.length).any fun i =>
      opts.patient.expired (s.clockReads + i)) = false := by
    simp [RecoverOptions.patient]
  unfold parseCommit
  simp only [hcheck, hadd, hsafe, hlooks, Bool.false_eq_true, if_false]
  cases checkCommit opts f off s with
  | error e => exact .inl rfl
  | ok commit =>
    dsimp only
    by_cases hexp : ((range s.pending.length).any fun i => opts.expired (s.clockReads + i)) = true
    · obtain ⟨i, -, hi⟩ := any_eq_true.mp hexp
      exact .inr ⟨⟨_, if_pos hexp⟩, _, hi⟩
    rw [if_neg hexp]
    split
    · exact .inl rfl
    split
    · exact .inl rfl
    split
    · exact .inl rfl
    rename_i s' _
    rcases hurries_applyPending opts apply (off + batchCommitSize) commit.seq s'.pending s' with
      heq | ⟨⟨s'', heq⟩, hlate⟩
    · rw [heq]
      exact .inl rfl
    · rw [heq]
      exact .inr ⟨⟨s'', rfl⟩, hlate⟩

theorem hurries_parseEntry : Hurries opts (parseEntry segID opts (some apply) f off s)
    (parseEntry segID opts.patient (some apply) f off s) := by
  unfold parseEntry
  cases readFullAt f 4 off with
  | none => exact .inl rfl
  | some buf =>
    dsimp only
    by_cases hcommit : u32At buf 0 = batchCommitMagic
    · rw [if_pos hcommit, if_pos hcommit]
      exact hurries_parseCommit opts apply f off s
    · rw [if_neg hcommit, if_neg hcommit]
      exact .inl rfl

theorem walk_patient (fuel off : Nat) (s : RecoveryState σ) :
    walk segID opts (some apply) f fuel off s = walk segID opts.patient (some apply) f fuel off s ∨
      (walk segID opts (some apply) f fuel off s).1 = .fail true .recoveryBudgetExceeded ∧
        ∃ n, opts.expired n = true := by
  induction fuel generalizing off s with
  | zero => exact .inl rfl
  | succ fuel ih =>
    rw [walk, walk]
    by_cases hoff : off < f.length
    · rw [if_pos hoff, if_pos hoff]
      by_cases hexp : opts.expired s.clockReads = true
      · rw [if_pos hexp]
        exact .inr ⟨rfl, _, hexp⟩
      have hclock : ¬ opts.patient.expired s.clockReads = true := Bool.false_ne_true
      rw [if_neg hexp, if_neg hclock]
      rcases hurries_parseEntry segID opts apply f off { s with clockReads := s.clockReads + 1 } with
        heq | ⟨⟨s', heq⟩, hlate⟩
      · rw [heq]
        split
        · exact ih _ _
        · exact .inl rfl
      · rw [heq]
        exact .inr ⟨rfl, hlate⟩
    · rw [if_neg hoff, if_neg hoff]
      exact .inl rfl

/-- **Recovery** does what it does without a deadline, or the deadline has passed. -/
theorem recover_patient (sink : σ) :
    recoverFromSegmentLog segID opts (some apply) sink f =
        recoverFromSegmentLog segID opts.patient (some apply) sink f ∨
      (recoverFromSegmentLog segID opts (some apply) sink f).err = some .recoveryBudgetExceeded ∧
        ∃ n, opts.expired n = true := by
  have hsame : recoverStart opts.patient f = recoverStart opts f := rfl
  rcases hstart : recoverStart opts f with e | ⟨start, seq⟩
  · refine .inl ?_
    unfold recoverFromSegmentLog
    rw [hsame, hstart]
  rcases walk_patient segID opts apply f f.length start (.init sink start seq opts.safeSeq) with
    heq | ⟨hended, hlate⟩
  · have hinit : RecoveryState.init sink start seq opts.patient.safeSeq =
        .init sink start seq opts.safeSeq := rfl
    unfold recoverFromSegmentLog
    rw [hsame, hstart]
    dsimp only
    rw [hinit, heq]
    split
    · exact .inl rfl
    rename_i s' _
    have hlimits : recoveryByteLimits opts.patient = recoveryByteLimits opts := rfl
    have hclock : ¬ opts.patient.expired s'.clockReads = true := Bool.false_ne_true
    rw [hlimits, if_neg hclock]
    split
    · exact .inl rfl
    split
    · rename_i hexp
      exact .inr ⟨rfl, _, hexp⟩
    · exact .inl rfl
  · exact .inr ⟨recover_spent hstart hended, hlate⟩

end Deadline

/-! ### New -/

namespace Store

/-- There is no segment yet, or the newest one holds a log of which the end may be missing. -/
def OnDisk (cfg : Config) (files : Dir) (cp : Option RecoveryCheckpoint) : Prop :=
  (files = ∅ ∧ cp = none) ∨ ∃ h segmentClass file before after rest tail q,
    TornFile cfg files cp h segmentClass file before after rest tail q

variable {cfg : Config} {files : Dir} {cp : Option RecoveryCheckpoint} {h : SegmentID}
  {segmentClass : SegmentClass} {file : File} {before after rest : List LogEntry}
  {tail : List UInt8} {q : UInt64} {disk : Disk}

theorem TornFile.onDisk (ht : TornFile cfg files cp h segmentClass file before after rest tail q) :
    OnDisk cfg files cp :=
  .inr ⟨_, _, _, _, _, _, _, _, ht⟩

theorem OnDisk.crash (hs : OnDisk cfg files cp) (keep : SegmentID → Nat) :
    OnDisk cfg (files.crash keep) cp := by
  rcases hs with ⟨rfl, hcp⟩ | ⟨h, cls, file, before, after, rest, tail, q, ht⟩
  · exact .inl ⟨rfl, hcp⟩
  · exact (ht.crash keep).onDisk

theorem recoverActiveSegment_error {clock : RecoveryClock} {s : Store} {e : Err}
    (hmax : maxSegmentID s.files = h) (hfile : s.files.lookup h = some file)
    (herr : (recoverFromSegmentLog h (recoverOptions cfg clock s.checkpoint h) (some recoverApply)
      s.overlay file.bytes).err = some e) : recoverActiveSegment cfg clock s = .error e := by
  subst hmax
  unfold recoverActiveSegment
  simp only [hfile, herr]

/-- **The first part of `New`** replays the log if the newest segment has its header, or exceeds
its budget. -/
theorem TornFile.replays_or_exceeds (clock : RecoveryClock)
    (ht : TornFile cfg disk.files disk.checkpoint h segmentClass file before after rest tail q)
    (hlen : segmentHeaderSize ≤ file.bytes.length) :
    (∃ s file' rest', recoverActiveSegment cfg clock (opens cfg disk) = .ok s ∧
        Replayed cfg disk h segmentClass before after rest' q s file' ∧
        file'.bytes.length ≤ file.bytes.length) ∨
      recoverActiveSegment cfg clock (opens cfg disk) = .error .recoveryBudgetExceeded ∧
        (recoverOptions cfg clock disk.checkpoint h).Exceeded file.bytes.length := by
  let patient : RecoveryClock := ⟨fun _ => false, clock.starting⟩
  have hmax : maxSegmentID disk.files = h := ht.highest.maxSegmentID_eq
  obtain ⟨rest', tail', w, hrest, hlog, -⟩ := ht.replayable hlen
    (show ∀ n, patient.reading n = false from fun _ => rfl)
  have hrec := hlog.recover fun _ => rfl
  rcases recover_patient h (recoverOptions cfg clock disk.checkpoint h) recoverApply file.bytes
    .empty with heq | ⟨hspent, hlate⟩
  · have hsame : (recoverOptions cfg clock disk.checkpoint h).patient =
        recoverOptions cfg patient disk.checkpoint h := rfl
    rw [← hsame, ← heq] at hrec
    rcases hrec with hrec | ⟨hover, hspent⟩
    · obtain ⟨s, file', hrun, hr⟩ := ht.replays hrest hlog.bytes hrec
      refine .inl ⟨s, file', rest', hrun, hr, ?_⟩
      rw [hr.bytes, hlog.bytes, length_append, append_assoc]
      omega
    · refine .inr ⟨recoverActiveSegment_error hmax ht.lookup hspent, ?_⟩
      refine exceeded_of_not_within ?_ (Nat.sub_le _ _) hover
      have hseen := hlog.stops.1
      have hsteps := logSteps_le h cfg.streamID segmentHeaderSize (before ++ (after ++ rest'))
      rw [hlog.bytes, length_append, length_segmentBytes, segmentDescriptors]
      show 67 * _ ≤ _
      omega
  · exact .inr ⟨recoverActiveSegment_error hmax ht.lookup hspent, .inl hlate⟩

end Store

/-- The deadline passes, or a recovery limit is below what the newest segment can hold. -/
def Exceeds (cfg : Config) (clock : RecoveryClock) (disk : Disk) : Prop :=
  (∃ n, clock.starting n = true) ∨
    ∃ file, disk.files.lookup (maxSegmentID disk.files) = some file ∧
      (recoverOptions cfg clock disk.checkpoint (maxSegmentID disk.files)).Exceeded
        file.bytes.length

namespace Store

/-- **`New`** on a torn log: if the newest segment has its header, and either room for a marker or
nothing behind the checkpoint, then it succeeds or exceeds its budget. -/
theorem TornFile.new {cfg : Config} (clock : RecoveryClock) (now : UInt64) {disk : Disk}
    {h : SegmentID} {segmentClass : SegmentClass} {file : File} {before after rest : List LogEntry}
    {tail : List UInt8} {q : UInt64}
    (ht : TornFile cfg disk.files disk.checkpoint h segmentClass file before after rest tail q)
    (hlen : segmentHeaderSize ≤ file.bytes.length)
    (hroom : file.bytes.length + batchCommitSize ≤ cfg.size ∨
      (file.bytes.length : Int) ≤ (recoverOptions cfg clock disk.checkpoint h).safeOffset) :
    (∃ s index seq, Store.new cfg clock now disk = .ok s ∧ Opened cfg h index seq s ∧
        seq.toNat < seqBound) ∨
      Store.new cfg clock now disk = .error .recoveryBudgetExceeded ∧ Exceeds cfg clock disk := by
  have hmax : maxSegmentID disk.files = h := ht.highest.maxSegmentID_eq
  rcases ht.replays_or_exceeds clock hlen with ⟨s1, file1, rest', hrec, hr, hle⟩ | ⟨hspent, hover⟩
  · rcases hr.new hrec now (ht.room hr hle hroom) with ⟨s, hnew, hopened⟩ | ⟨hspent, hlate⟩
    · exact .inl ⟨s, _, _, hnew, hopened, hr.seq_lt⟩
    · exact .inr ⟨hspent, .inl hlate⟩
  · refine .inr ⟨?_, .inr ⟨file, ?_, ?_⟩⟩
    · unfold Store.new
      rw [hspent]
    · rw [hmax]
      exact ht.lookup
    · rw [hmax]
      exact hover

end Store

end Nufs.Storage
