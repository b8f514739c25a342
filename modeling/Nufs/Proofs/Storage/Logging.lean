/-
A store between its checkpoint and the end of its log.

`Logging` is what holds of a serving store's files: the active segment holds a log
that is durable, and the checkpoint stands somewhere in it or in an older segment.
Commits, rotations, markers and checkpoints keep it.  `TornLog` is what is left of it
when one of them is cut off, and what `New` can read after the crash.
-/
import Nufs.Proofs.Storage.FailedBatch
import Nufs.Proofs.Storage.Reopen

namespace Nufs.Storage

open ByteFile List

namespace Store

/-- The log of a serving store: `before` lies in front of its checkpoint, `after` behind it. -/
structure Logging (cfg : Config) (s : Store) (before after : List LogEntry) (file : File)
    (q : UInt64) : Prop where
  streamID : s.streamID = cfg.streamID
  writing : Writing s (before ++ after) [] file
  published : AllPublished s
  seq_lt : s.streamSeq.toNat < seqBound
  count : (segmentDescriptors s.streamID s.alloc.segmentID (before ++ after)).length ≤
    s.alloc.recordCount
  pos : 0 < s.alloc.segmentID
  boundary : Boundary s.streamID s.alloc.segmentID s.alloc.segmentClass s.checkpoint before q
  safe : ∀ x ∈ logSeqs after, q < x
  safe_le : q ≤ s.streamSeq

section Logging

variable {cfg : Config} {s s' : Store} {before after : List LogEntry} {file file' : File}
  {q : UInt64}

/-- What is only in memory or in the index does not matter. -/
theorem Logging.congr (h : Logging cfg s before after file q) (heq : s' = { s with
      overlay := s'.overlay, index := s'.index, safeSeq := s'.safeSeq
      flushMutations := s'.flushMutations, applyCh := s'.applyCh, locCache := s'.locCache }) :
    Logging cfg s' before after file q := by
  rw [heq]
  exact ⟨h.streamID, ⟨h.writing.lookup, h.writing.log, h.writing.offset,
    h.writing.seq_le, h.writing.nextSeg, h.writing.fresh⟩, h.published.congr rfl, h.seq_lt, h.count,
    h.pos, h.boundary, h.safe, h.safe_le⟩

/-- A store that was just opened. -/
theorem Opened.logging {h : SegmentID} {index : Index} {seq : UInt64}
    (hs : Opened cfg h index seq s)
    (hseq : seq.toNat < seqBound) : ∃ file, Logging cfg s [] [] file 0 := by
  obtain ⟨file, hwriting⟩ := hs.writing
  refine ⟨file, hs.streamID, hwriting, hs.published, by rwa [hs.streamSeq], ?_, ?_,
    .start fun c hc => ?_, by simp [logSeqs], ?_⟩
  · simp [segmentDescriptors, logDescriptors]
  · rw [hs.segmentID]
    exact Nat.succ_pos h
  · rw [hs.segmentID]
    exact Nat.lt_succ_of_le (hs.checkpoint c hc)
  · exact UInt64.le_iff_toNat_le.mpr (Nat.zero_le _)

/-- After a seal the log is empty, in the next segment. -/
theorem Logging.seal {files : Dir} {footer : SegmentFooter} (h : Logging cfg s before after file q)
    (now : UInt64) (hdir : SealedDir s files file footer
      (some (newSegmentHeader (s.nextSeg + 1) s.alloc.segmentClass).encode)) :
    ∃ file', Logging cfg (s.afterSeal files now) [] [] file' 0 := by
  refine ⟨_, h.streamID, h.writing.sealed now hdir, h.published.congr rfl, h.seq_lt,
    ?_, ?_, .start fun c hc => ?_, by simp [logSeqs], ?_⟩
  · simp [segmentDescriptors, logDescriptors]
  · exact Nat.succ_pos _
  · have hle := h.boundary.segmentID_le c hc
    rw [← h.writing.nextSeg] at hle
    exact Nat.lt_succ_of_le hle
  · exact UInt64.le_iff_toNat_le.mpr (Nat.zero_le _)

variable (streamID : UInt8) (segID : SegmentID)

section

variable (segmentClass : SegmentClass) (es : List LogEntry) (q : UInt64)

theorem segmentDescriptors_batch (b : Batch) :
    segmentDescriptors streamID segID (es ++ [.batch b]) = segmentDescriptors streamID segID es ++
        recordsDescriptors segID (segmentBytes streamID segID segmentClass es).length
          b.records := by
  rw [segmentDescriptors_append _ _ segmentClass]
  simp [logDescriptors, LogEntry.descriptors]

theorem segmentDescriptors_safeAt :
    segmentDescriptors streamID segID (es ++ [.safeAt q]) =
      segmentDescriptors streamID segID es := by
  rw [segmentDescriptors_append _ _ .data]
  simp [logDescriptors, LogEntry.descriptors, LogEntry.safeAt]

end

variable {t : List UInt8}

/-- A batch that is durable and published extends the log. -/
theorem Logging.append {rs : List FramedRecord} {hne : rs ≠ []}
    {hseq : s.streamSeq.toNat + rs.length < 2 ^ 64} (h : Logging cfg s before after file q)
    (happ : BatchAppended s s' file (batchAt s.streamSeq rs hne hseq) t file')
    (ht : t = (batchAt s.streamSeq rs hne hseq).bytes s.alloc.segmentID s.streamID
      file.bytes.length) (hsynced : file'.synced = file'.bytes)
    (hpub : AllPublished s → AllPublished s') (hbound : s.streamSeq.toNat + rs.length < seqBound) :
    Logging cfg s' before (after ++ [.batch (batchAt s.streamSeq rs hne hseq)]) file' q := by
  set b := batchAt s.streamSeq rs hne hseq
  have hwriting := (h.writing.append happ ht).1 hsynced
  rw [append_nil, append_assoc] at hwriting
  have hqseq : q < b.seq := seq_lt_batchAt hne hseq h.safe_le
  refine ⟨happ.kept.streamID.trans h.streamID, hwriting, hpub h.published, ?_, ?_, ?_, ?_, ?_, ?_⟩
  · rw [happ.streamSeq, toNat_batchAt_seq]
    exact hbound
  · have hcount := h.count
    rw [happ.kept.streamID, happ.alloc.segmentID, happ.alloc.recordCount, ← append_assoc,
      segmentDescriptors_batch _ _ s.alloc.segmentClass, length_append, length_recordsDescriptors]
    omega
  · rw [happ.alloc.segmentID]
    exact h.pos
  · rw [happ.kept.streamID, happ.alloc.segmentID, happ.alloc.segmentClass, happ.kept.checkpoint]
    exact h.boundary
  · intro x hx
    rw [logSeqs_append, mem_append] at hx
    rcases hx with hx | hx
    · exact h.safe x hx
    · obtain rfl : x = b.seq := by simpa [logSeqs, LogEntry.seq?] using hx
      exact hqseq
  · rw [happ.streamSeq]
    exact UInt64.le_of_lt hqseq

/-- What the writing of a marker does to the files. -/
structure MarkAppended (s s' : Store) (file : File) (safe : UInt64) (t : List UInt8)
    (file' : File) : Prop where
  unseen : Unseen s s'
  nextSeg : s'.nextSeg = s.nextSeg
  files : TornAppend s.alloc.segmentID s.files s'.files file (CommitRecord.indexSafe safe).encode t
    file'
  recordCount : s'.alloc.recordCount = s.alloc.recordCount
  segmentID : s'.alloc.segmentID = s.alloc.segmentID
  segmentClass : s'.alloc.segmentClass = s.alloc.segmentClass
  streamSeq : s'.streamSeq = s.streamSeq
  published : AllPublished s → AllPublished s'

/-- The marker has no room, or it is appended; where it is written whole, it is durable. -/
theorem writeIndexSafeLocked_cases (fault : Fault) (safe : UInt64)
    (hfile : s.files.lookup s.alloc.segmentID = some file)
    (hoff : s.alloc.offset = file.bytes.length) :
    (∃ e, writeIndexSafeLocked fault safe s = (.error e, s)) ∨
      ∃ t file', MarkAppended s (writeIndexSafeLocked fault safe s).2 file safe t file' ∧
        ((∃ e, (writeIndexSafeLocked fault safe s).1 = .error e ∧ fault ≠ none) ∨
          (writeIndexSafeLocked fault safe s).1 =
              .ok ⟨s.alloc.segmentID, file.bytes.length + commitRecordSize, safe⟩ ∧
            (writeIndexSafeLocked fault safe s).2.alloc.offset =
              file.bytes.length + commitRecordSize ∧
            file'.synced = file'.bytes ∧ t = (CommitRecord.indexSafe safe).encode) := by
  have hunseen := writeIndexSafeLocked_unseen fault safe s
  unfold writeIndexSafeLocked at hunseen ⊢
  cases htail : s.alloc.currentTail with
  | error e => exact .inl ⟨e, rfl⟩
  | ok tail =>
    obtain rfl : s.alloc.offset = tail := by
      unfold Allocator.currentTail at htail
      split_ifs at htail
      exact Except.ok.inj htail
    right
    have hbars : ∀ op ∈ [FileOp.sync s.alloc.segmentID],
        op = .stage ∨ op = .sync s.alloc.segmentID := by simp
    obtain ⟨t, file', htorn, hok, -⟩ := runOps_durable (CommitRecord.indexSafe safe).encode hbars
      mem_cons_self fault hfile
    rw [← hoff] at htorn hok
    rcases hrun : runOps [.write s.alloc.segmentID s.alloc.offset
      (CommitRecord.indexSafe safe).encode, .sync s.alloc.segmentID] fault s.files with
      ⟨ok, fault', files⟩
    rw [htail] at hunseen
    simp only [hrun] at hunseen htorn hok ⊢
    cases ok with
    | false =>
      refine ⟨t, file', ⟨hunseen, rfl, htorn, rfl, rfl, rfl, rfl, fun h => h.congr rfl⟩,
        .inl ⟨_, rfl, ?_⟩⟩
      rintro rfl
      rw [runOps_none] at hrun
      simp at hrun
    | true =>
      obtain ⟨hsynced, ht⟩ := hok rfl
      refine ⟨t, file', ⟨hunseen, rfl, htorn, rfl, rfl, rfl, rfl, fun h => h.congr rfl⟩,
        .inr ⟨?_, ?_, ?_, ht⟩⟩
      · rw [hoff]
      · simp [Allocator.consume, hoff]
      · rw [hsynced, htorn.bytes, ht]

/-- A marker of the current sequence extends the log. -/
theorem Logging.mark (h : Logging cfg s before after file q)
    (happ : MarkAppended s s' file s.streamSeq t file')
    (ht : t = (CommitRecord.indexSafe s.streamSeq).encode) (hsynced : file'.synced = file'.bytes)
    (hoffset : s'.alloc.offset = file.bytes.length + commitRecordSize) :
    Logging cfg s' before (after ++ [.safeAt s.streamSeq]) file' q := by
  have hstream := happ.unseen.toKept.streamID
  have hseqs : logSeqs (before ++ after ++ [] ++ [.safeAt s.streamSeq]) =
      logSeqs (before ++ after ++ []) := logSeqs_safeAt _ _
  have hwriting : Writing s' (before ++ after ++ [] ++ [.safeAt s.streamSeq]) [] file' := by
    refine (h.writing.extend (.safeAt s.streamSeq) happ.files ht hstream happ.segmentID
      happ.segmentClass happ.nextSeg ?_ ?_ ?_ (unambiguous_indexSafe h.seq_lt)).1 hsynced
    · rw [hoffset, happ.files.bytes, ht]
      simp
    · rw [hseqs]
      exact h.writing.log.seqs
    · rw [hseqs, happ.streamSeq]
      exact h.writing.seq_le
  rw [append_nil, append_assoc] at hwriting
  refine ⟨hstream.trans h.streamID, hwriting, happ.published h.published, ?_, ?_, ?_, ?_, ?_, ?_⟩
  · rw [happ.streamSeq]
    exact h.seq_lt
  · rw [hstream, happ.segmentID, happ.recordCount, ← append_assoc, segmentDescriptors_safeAt]
    exact h.count
  · rw [happ.segmentID]
    exact h.pos
  · rw [hstream, happ.segmentID, happ.segmentClass, happ.unseen.toKept.checkpoint]
    exact h.boundary
  · rw [logSeqs_safeAt]
    exact h.safe
  · rw [happ.streamSeq]
    exact h.safe_le

/-- A marker of the current sequence has no room, or is the last entry of the log. -/
inductive Marking (cfg : Config) (s : Store) (before after : List LogEntry) (file : File)
    (q : UInt64) : Except Err RecoveryCheckpoint × Store → Prop
  | full (e : Err) : Marking cfg s before after file q (.error e, s)
  | written {s' : Store} {t : List UInt8} {file' : File}
      (happ : MarkAppended s s' file s.streamSeq t file')
      (hlog : Logging cfg s' before (after ++ [.safeAt s.streamSeq]) file' q) :
      Marking cfg s before after file q
        (.ok ⟨s'.alloc.segmentID, file'.bytes.length, s'.streamSeq⟩, s')

theorem Logging.marking (h : Logging cfg s before after file q) :
    Marking cfg s before after file q (writeIndexSafeLocked none s.streamSeq s) := by
  rcases writeIndexSafeLocked_cases none s.streamSeq h.writing.lookup h.writing.offset with
    ⟨e, heq⟩ | ⟨t, file', happ, ⟨e, -, hnone⟩ | ⟨hok, hoffset, hsynced, ht⟩⟩
  · rw [heq]
    exact .full e
  · exact absurd rfl hnone
  have hmark := h.mark happ ht hsynced hoffset
  have hwritten := Marking.written happ hmark
  rwa [← hmark.writing.offset, hoffset, happ.segmentID, happ.streamSeq, ← hok] at hwritten

/-- A checkpoint behind the last marker declares the whole log safe. -/
theorem Logging.checkpoint {es : List LogEntry} (h : Logging cfg s before after file q)
    (hes : before ++ after = es ++ [.safeAt s.streamSeq])
    (hseq : s.streamSeq ≠ 0) :
    Logging cfg { s with checkpoint := some ⟨s.alloc.segmentID, file.bytes.length, s.streamSeq⟩ }
      (before ++ after) [] file s.streamSeq := by
  have hbytes := h.writing.bytes_eq
  rw [append_nil] at hbytes
  refine ⟨h.streamID, ?_, h.published.congr rfl, h.seq_lt, ?_, h.pos, ?_,
    by simp [logSeqs], UInt64.le_refl _⟩
  · rw [append_nil]
    exact ⟨h.writing.lookup, h.writing.log, h.writing.offset, h.writing.seq_le, h.writing.nextSeg,
      h.writing.fresh⟩
  · rw [append_nil]
    exact h.count
  · dsimp only
    rw [hbytes, hes]
    exact .marker es hseq

end Logging

/-! ### Logs that are cut off -/

/-- What a store that was cut off leaves of its log. -/
structure TornLog (cfg : Config) (s : Store) (h : SegmentID) (segmentClass : SegmentClass)
    (file : File) (before after rest : List LogEntry) (tail : List UInt8) (q : UInt64) : Prop
    extends TornFile cfg s.files s.checkpoint h segmentClass file before after rest tail q where
  streamID : s.streamID = cfg.streamID
  count : (segmentDescriptors s.streamID h (before ++ after ++ rest)).length ≤ s.alloc.recordCount

end Store

/-- How many records `New` replays at most. -/
def Config.recordLimit (cfg : Config) : Nat :=
  recoveryRecordLimit (recoverOptions cfg ⟨fun _ => false, fun _ => false⟩ none 0)

/-- How many bytes `New` replays, and cuts off, at most. -/
def Config.byteLimits (cfg : Config) : Nat × Nat :=
  recoveryByteLimits (recoverOptions cfg ⟨fun _ => false, fun _ => false⟩ none 0)

/-- The newest segment has its header, and room for a marker or nothing behind the checkpoint. -/
def Startable (cfg : Config) (disk : Disk) : Prop :=
  ∀ file, disk.files.lookup (maxSegmentID disk.files) = some file →
    segmentHeaderSize ≤ file.bytes.length ∧
      (file.bytes.length + batchCommitSize ≤ cfg.size ∨
        (file.bytes.length : Int) ≤ (recoverOptions cfg ⟨fun _ => false, fun _ => false⟩
          disk.checkpoint (maxSegmentID disk.files)).safeOffset)
  deriving Decidable

/-- Also, what lies behind the checkpoint is within the limits of the recovery. -/
def Recoverable (cfg : Config) (disk : Disk) : Prop :=
  Startable cfg disk ∧ ∀ file, disk.files.lookup (maxSegmentID disk.files) = some file →
    file.bytes.length - (recoverOptions cfg ⟨fun _ => false, fun _ => false⟩ disk.checkpoint
      (maxSegmentID disk.files)).safeOffset.toNat ≤ min cfg.byteLimits.1 cfg.byteLimits.2
  deriving Decidable

namespace Store

section TornLog

variable {cfg : Config} {s s' : Store} {h : SegmentID} {segmentClass : SegmentClass}
  {before after rest : List LogEntry} {file file' : File} {tail : List UInt8} {q : UInt64}

variable {n : Nat} {rs : List FramedRecord} {files : Dir} {footer : SegmentFooter}

/-- **A crash and `New`.**  The store opens again, and has replayed what was durable and some
first part of the rest. -/
theorem TornLog.reopen (ht : TornLog cfg s h segmentClass file before after rest tail q)
    {keep : SegmentID → Nat} (hcount : s.alloc.recordCount ≤ cfg.recordLimit)
    (hdisk : Recoverable cfg ⟨s.files.crash keep, s.index, s.checkpoint⟩) {clock : RecoveryClock}
    (hclock : clock.Quiet) (now : UInt64) :
    ∃ rest' s' seq, rest' <+: rest ∧ seq.toNat < seqBound ∧
      Store.new cfg clock now ⟨s.files.crash keep, s.index, s.checkpoint⟩ = .ok s' ∧
      Opened cfg h (s.index.applyNow ((logDescriptors h s.streamID
          (segmentBytes s.streamID h segmentClass before).length (after ++ rest')).foldl
            CommitDescriptor.applyTo .empty).drained) seq s' := by
  let disk : Disk := ⟨s.files.crash keep, s.index, s.checkpoint⟩
  have hcrash : TornFile cfg disk.files disk.checkpoint h segmentClass _ before after rest tail q :=
    ht.crash keep
  obtain ⟨hstart, hlimits⟩ := hdisk
  unfold Startable at hstart
  rw [hcrash.highest.maxSegmentID_eq] at hstart hlimits
  obtain ⟨hlen, hroom⟩ := hstart _ hcrash.lookup
  have hbytes := hlimits _ hcrash.lookup
  rw [hcrash.boundary.safeOffset_eq, Int.toNat_natCast, le_min_iff] at hbytes
  obtain ⟨rest', tail', w, hrest, hlog, hrecords⟩ := hcrash.replayable hlen hclock.1
  have hseen : (segmentDescriptors cfg.streamID h (before ++ (after ++ rest'))).length + w ≤
      cfg.recordLimit := by
    have hlimit := ht.count
    rw [ht.streamID] at hlimit
    exact (hrecords.trans hlimit).trans hcount
  have hrec := (hlog.recover hclock.1).resolve_right fun h => h.1 ⟨hseen, hbytes⟩
  obtain ⟨s1, file1, hrecover, hr⟩ := hcrash.replays hrest hlog.bytes hrec
  have hle : file1.bytes.length ≤ (file.cut (keep h)).bytes.length := by
    rw [hr.bytes, hlog.bytes, length_append, append_assoc]
    omega
  rcases hr.new hrecover now (hcrash.room hr hle hroom) with ⟨s', hnew, hopened⟩ | ⟨-, n, hlate⟩
  · rw [hr.overlay] at hopened
    rw [ht.streamID]
    exact ⟨rest', s', _, hrest, hr.seq_lt, hnew, hopened⟩
  · exact absurd hlate (by simp [hclock.2])

variable {t : List UInt8} {batch : List PendingWrite}

section

variable (hs : Logging cfg s before after file q)
include hs

theorem Logging.seq_le (x : UInt64) (hx : x ∈ logSeqs after) : x ≤ s.streamSeq := by
  refine hs.writing.seq_le x ?_
  rw [append_nil, logSeqs_append]
  exact mem_append_right _ hx

/-- A store that is cut off between two operations. -/
theorem Logging.torn :
    TornLog cfg s s.alloc.segmentID s.alloc.segmentClass file before after [] [] q := by
  have hbytes := hs.writing.bytes_eq
  have hdurable := hs.writing.log.durable
  have hseqs := hs.writing.log.seqs
  have hboundary := hs.boundary
  have hsafe : q.toNat < seqBound := (UInt64.le_iff_toNat_le.mp hs.safe_le).trans_lt hs.seq_lt
  rw [append_nil, hs.streamID] at hbytes
  rw [append_nil, logSeqs_append] at hseqs
  rw [hs.streamID] at hdurable hboundary
  refine ⟨⟨⟨.inr ?_, ?_⟩, hs.writing.lookup, hs.pos, ?_, ?_, .inl rfl, ?_, ?_, ?_, hsafe, hboundary,
    ?_⟩, hs.streamID, by rw [append_nil]; exact hs.count⟩
  · rw [hs.writing.lookup]
    rfl
  · intro id hid
    exact hs.writing.fresh id (by rw [hs.writing.nextSeg]; exact hid)
  · rw [append_nil, append_nil, hbytes]
  · exact hdurable.imp_right fun hsynced => ⟨hsynced, by rw [hbytes]⟩
  all_goals rw [append_nil]
  · exact (pairwise_append.mp hseqs).2.1
  · intro e he
    exact hs.writing.log.unambiguous e (by simp [he])
  · intro x hx
    exact (UInt64.le_iff_toNat_le.mp (hs.seq_le x hx)).trans_lt hs.seq_lt
  · exact hs.safe

/-- A store that is cut off while it appends a batch. -/
theorem Logging.torn_batch {hne : rs ≠ []} {hseq : s.streamSeq.toNat + rs.length < 2 ^ 64}
    (happ : BatchAppended s s' file (batchAt s.streamSeq rs hne hseq) t file')
    (hbound : s.streamSeq.toNat + rs.length < seqBound) :
    TornLog cfg s' s.alloc.segmentID s.alloc.segmentClass file' before after
      [.batch (batchAt s.streamSeq rs hne hseq)] [] q := by
  set b := batchAt s.streamSeq rs hne hseq
  have hbytes := hs.writing.bytes_eq
  rw [append_nil] at hbytes
  have hlt : ∀ x ≤ s.streamSeq, x < b.seq := fun x hx => seq_lt_batchAt hne hseq hx
  refine ⟨?_, happ.kept.streamID.trans hs.streamID, ?_⟩
  · rw [happ.kept.checkpoint]
    refine hs.torn.append happ.files ?_ (.inl rfl) ?_ ?_ ?_
    · rw [nil_append, segmentBytes_batch, ← hs.streamID, hbytes, append_nil]
    · rw [nil_append, logSeqs_append]
      have hall := hs.torn.seqs
      rw [append_nil] at hall
      refine pairwise_append.mpr ⟨hall, pairwise_singleton _ b.seq, ?_⟩
      intro x hx y hy
      obtain rfl : y = b.seq := by simpa [logSeqs, LogEntry.seq?] using hy
      exact hlt x (hs.seq_le x hx)
    · intro x hx
      obtain rfl : x = b.seq := by simpa [logSeqs, LogEntry.seq?] using hx
      refine ⟨hlt q hs.safe_le, ?_⟩
      rw [toNat_batchAt_seq]
      exact hbound
    · intro e he
      obtain rfl := mem_singleton.mp he
      trivial
  · have hcount := hs.count
    rw [happ.kept.streamID, happ.alloc.recordCount,
      segmentDescriptors_batch _ _ s.alloc.segmentClass, length_append, length_recordsDescriptors]
    omega

/-- A store that is cut off while it writes a marker. -/
theorem Logging.torn_mark (happ : MarkAppended s s' file s.streamSeq t file') :
    TornLog cfg s' s.alloc.segmentID s.alloc.segmentClass file' before after
      [.safeAt s.streamSeq] [] q := by
  have hbytes := hs.writing.bytes_eq
  have hstream := happ.unseen.toKept.streamID
  rw [hs.streamID] at hbytes
  refine ⟨?_, hstream.trans hs.streamID, ?_⟩
  · rw [happ.unseen.toKept.checkpoint]
    exact hs.torn.mark hbytes happ.files hs.seq_lt
  · rw [hstream, segmentDescriptors_safeAt, happ.recordCount]
    exact hs.count

end

/-- A store that is cut off while it writes a footer. -/
theorem Logging.torn_footer (nextSeg : SegmentID) (hs : Logging cfg s before after file q)
    (hmagic : footer.magic = segmentMagic)
    (htorn : TornAppend s.alloc.segmentID s.files files file footer.encode t file') :
    TornLog cfg { s with files, nextSeg } s.alloc.segmentID s.alloc.segmentClass file' before after
      [] footer.encode q := by
  have hbytes := hs.writing.bytes_eq
  rw [hs.streamID] at hbytes
  have hold := hs.torn
  exact ⟨hold.append htorn (by rw [hbytes]; rfl) (.inr ⟨footer, hmagic, rfl⟩) hold.seqs
    (by simp [logSeqs]) (by simp), hs.streamID, hold.count⟩

/-- A store that is cut off while it opens the next segment. -/
theorem Logging.torn_header {u : List UInt8} (hs : Logging cfg s before after file q)
    (hdir : SealedDir s files file footer (some u)) :
    TornLog cfg { s with files, nextSeg := s.nextSeg + 1 } (s.nextSeg + 1) s.alloc.segmentClass
      ⟨u, []⟩ [] [] [] [] 0 := by
  refine ⟨tornFile_new (Nat.succ_pos _) (hdir.fresh hs.writing.nextSeg hs.writing.fresh) hdir.new
    (hdir.header u rfl) fun c hc => ?_, hs.streamID, by simp [segmentDescriptors, logDescriptors]⟩
  have hle := hs.boundary.segmentID_le c hc
  rw [← hs.writing.nextSeg] at hle
  exact Nat.lt_succ_of_le hle

/-- What a torn log may hold is held, once all of it is durable. -/
theorem TornLog.settle (ht : TornLog cfg s h segmentClass file before after rest [] q)
    (hsynced : file.synced = file.bytes)
    (hbytes : file.bytes = segmentBytes s.streamID h segmentClass (before ++ after ++ rest)) :
    TornLog cfg s h segmentClass file before (after ++ rest) [] [] q := by
  rw [append_assoc, ht.streamID] at hbytes
  refine ⟨⟨ht.highest, ht.lookup, ht.pos, ?_, .inr ⟨?_, ?_⟩, .inl rfl, ?_, ?_, ?_, ht.safe_lt,
    ht.boundary, ?_⟩, ht.streamID, ?_⟩
  · rw [append_nil, append_nil, hbytes]
  · rw [hsynced, hbytes]
  · rw [hbytes]
  · rw [append_nil]
    exact ht.seqs
  · rw [append_nil]
    exact ht.unambiguous
  · rw [append_nil]
    exact ht.seq_lt
  · rw [append_nil]
    exact ht.safe
  · rw [append_nil, ← append_assoc]
    exact ht.count

/-! ### Committing -/

/-- The log goes on in the same segment, or an empty one starts in the next. -/
inductive Continues (h : SegmentID) (before after : List LogEntry) :
    SegmentID → List LogEntry → List LogEntry → Prop
  | same : Continues h before after h before after
  | next : Continues h before after (h + 1) [] []

theorem Continues.elim {h' : SegmentID} {before' after' : List LogEntry}
    (hc : Continues h before after h' before' after') :
    (h' = h ∧ before' = before ∧ after' = after) ∨ (h' = h + 1 ∧ before' = [] ∧ after' = []) := by
  cases hc with
  | same => exact .inl ⟨rfl, rfl, rfl⟩
  | next => exact .inr ⟨rfl, rfl, rfl⟩

/-- **A seal** starts an empty log in the next segment; cut off, it leaves a torn log. -/
theorem Logging.seals {fault fault' : Fault} {now : UInt64} {r : Except Err Unit}
    (hs : Logging cfg s before after file q) (hmagic : footer.magic = segmentMagic)
    (hseals : Seals fault now s file footer r fault' s') :
    (r = .ok () ∧ ∃ file1, Logging cfg s' [] [] file1 0 ∧ s'.streamSeq = s.streamSeq ∧
        (fault = none → fault' = none) ∧
        Continues s.alloc.segmentID before after s'.alloc.segmentID [] []) ∨
      ∃ e, r = .error e ∧ fault ≠ none ∧ ∃ h segmentClass file1 before1 after1 tail q1,
        TornLog cfg s' h segmentClass file1 before1 after1 [] tail q1 ∧
        Continues s.alloc.segmentID before after h before1 after1 := by
  cases hseals with
  | footer hspares htorn =>
    exact .inr ⟨_, rfl, Fault.ne_none hspares, _, _, _, _, _, _, _,
      hs.torn_footer s.nextSeg hmagic htorn, .same⟩
  | @header _ _ u hspares _ hdir =>
    refine .inr ⟨_, rfl, Fault.ne_none hspares, ?_⟩
    cases u with
    | none =>
      -- The next segment was not created: the sealed one is still the highest.
      have htorn := hdir.torn (hs.writing.fresh _ (Nat.lt_succ_self _))
      exact ⟨_, _, _, _, _, _, _, hs.torn_footer (s.nextSeg + 1) hmagic htorn, .same⟩
    | some u =>
      refine ⟨_, _, _, _, _, _, _, hs.torn_header hdir, ?_⟩
      rw [hs.writing.nextSeg]
      exact .next
  | @done files _ hdir =>
    obtain ⟨file1, hs1⟩ := hs.seal now hdir
    refine .inl ⟨rfl, file1, hs1, rfl, ?_, ?_⟩
    · rintro rfl
      rfl
    · have hid : (s.afterSeal files now).alloc.segmentID = s.alloc.segmentID + 1 := by
        rw [← hs.writing.nextSeg]
        rfl
      rw [hid]
      exact .next

/-- **Making room** keeps the log or starts a new one; cut off, it leaves a torn log. -/
theorem Logging.rotate (fault : Fault) (now : UInt64) (batch : List PendingWrite)
    (hs : Logging cfg s before after file q) :
    (∃ fault' s1 before1 after1 file1 q1, rotate fault now batch s = (.ok (), fault', s1) ∧
        Logging cfg s1 before1 after1 file1 q1 ∧ fits s1.alloc batch = true ∧
        s1.streamSeq = s.streamSeq ∧ (fault = none → fault' = none) ∧
        Continues s.alloc.segmentID before after s1.alloc.segmentID before1 after1) ∨
      ∃ e fault' s1, rotate fault now batch s = (.error e, fault', s1) ∧
        ((∃ before1 after1 file1 q1, Logging cfg s1 before1 after1 file1 q1 ∧
            Continues s.alloc.segmentID before after s1.alloc.segmentID before1 after1) ∨
          fault ≠ none ∧ ∃ h segmentClass file1 before1 after1 tail q1,
            TornLog cfg s1 h segmentClass file1 before1 after1 [] tail q1 ∧
            Continues s.alloc.segmentID before after h before1 after1) := by
  rcases rotate_cases fault now batch hs.writing with ⟨hfits, hrot⟩ | ⟨-, ⟨e, hrot⟩ |
    ⟨footer, r, fault', s', hmagic, hseals, hrot⟩⟩
  · exact .inl ⟨fault, s, before, after, file, q, hrot, hs, hfits, rfl, id, .same⟩
  · exact .inr ⟨e, fault, s, hrot, .inl ⟨before, after, file, q, hs, .same⟩⟩
  rcases hs.seals hmagic hseals with ⟨rfl, file1, hs1, hseq, hfault, hnext⟩ | ⟨e, rfl, hcut⟩
  · dsimp only [Except.bind] at hrot
    split_ifs at hrot with hfits
    · exact .inl ⟨_, _, [], [], file1, 0, hrot, hs1, hfits, hseq, hfault, hnext⟩
    · exact .inr ⟨_, _, _, hrot, .inl ⟨[], [], file1, 0, hs1, hnext⟩⟩
  · exact .inr ⟨e, fault', s', hrot, .inr hcut⟩

/-- The placed writes of a batch that stands behind a log. -/
structure PlacedBehind (streamID : UInt8) (h : SegmentID) (es : List LogEntry) (b : Batch)
    (batch : List PendingWrite) (placed : List PlacedWrite) : Prop where
  batch : placed.map PlacedWrite.toPendingWrite = batch
  descriptors : segmentDescriptors streamID h (es ++ [.batch b]) =
    segmentDescriptors streamID h es ++ placed.map PlacedWrite.descriptor

theorem toPendingWrite_placeFrom (segID : SegmentID) (off : Nat) (seq : UInt64)
    (batch : List PendingWrite) :
    (placeFrom segID off seq batch).map PlacedWrite.toPendingWrite = batch := by
  induction batch generalizing off seq with
  | nil => rfl
  | cons pw batch ih => rw [placeFrom, map_cons, ih]

theorem Logging.placedBehind (hs : Logging cfg s before after file q)
    (hrs : List.Forall₂ PendingWrite.Frames batch rs) (hne : rs ≠ [])
    (hseq : s.streamSeq.toNat + rs.length < 2 ^ 64) :
    PlacedBehind s.streamID s.alloc.segmentID (before ++ after) (batchAt s.streamSeq rs hne hseq)
      batch (placeFrom s.alloc.segmentID s.alloc.offset s.streamSeq batch) := by
  refine ⟨toPendingWrite_placeFrom _ _ _ _, ?_⟩
  rw [segmentDescriptors_batch _ _ s.alloc.segmentClass, descriptor_placeFrom hrs,
    hs.writing.offset, hs.writing.bytes_eq, append_nil]
  rfl

/-- How far the commit of a batch came before it was cut off: not to its records, into them, or
behind the barrier. -/
inductive CutAt (s : Store) (batch : List PendingWrite) (s' : Store) (h : SegmentID)
    (before after : List LogEntry) : List LogEntry → List LogEntry → Prop
  | front (hoverlay : s'.overlay = s.overlay) : CutAt s batch s' h before after after []
  | inside {b : Batch} {placed : List PlacedWrite}
      (hplaced : PlacedBehind s'.streamID h (before ++ after) b batch placed)
      (hoverlay : s'.overlay = s.overlay) : CutAt s batch s' h before after after [.batch b]
  | behind {b : Batch} {placed : List PlacedWrite}
      (hplaced : PlacedBehind s'.streamID h (before ++ after) b batch placed)
      (hoverlay : s'.overlay = putPlaced s.overlay placed) :
      CutAt s batch s' h before after (after ++ [.batch b]) []

section Commit

variable (hs : Logging cfg s before after file q) (hne : batch ≠ [])
  (hframes : ∀ pw ∈ batch, ∃ r, pw.Frames r)
  (hbound : s.streamSeq.toNat + batch.length < seqBound)
include hs hne hframes hbound

/-- **A commit**: the log goes on, and with the batch behind it if it was committed. -/
theorem Logging.commitBatch (now : UInt64) :
    (∃ e s' before' after' file' q', commitBatch none now batch s = (.error e, s') ∧
        Logging cfg s' before' after' file' q' ∧
        Continues s.alloc.segmentID before after s'.alloc.segmentID before' after') ∨
      ∃ placed s' before' after' b file' q', commitBatch none now batch s = (.ok placed, s') ∧
        Logging cfg s' before' (after' ++ [.batch b]) file' q' ∧
        Continues s.alloc.segmentID before after s'.alloc.segmentID before' after' ∧
        PlacedBehind s'.streamID s'.alloc.segmentID (before' ++ after') b batch placed := by
  obtain ⟨rs, hrs, hrsne, hlen⟩ := exists_frames hne hframes
  rw [hlen] at hbound
  have hseq := lt_of_seqBound hbound
  unfold Store.commitBatch
  rcases hs.rotate none now batch with ⟨fault', s1, before1, after1, file1, q1, hrot, hs1, hfits,
    hstream, hfault, hcont⟩ | ⟨e, fault', s1, hrot, ⟨before1, after1, file1, q1, hs1, hcont⟩ |
    ⟨hfault, -⟩⟩
  · obtain rfl := hfault rfl
    rw [← hstream] at hseq hbound
    obtain ⟨t, file', happ, -, hresult⟩ := appendBatch_spec none hrs hrsne hseq hfits
      hs1.writing.lookup hs1.writing.offset
    rcases hresult with ⟨hok, hpub, hsynced, ht⟩ | ⟨e, -, hnone, -⟩
    · refine .inr ⟨placeFrom s1.alloc.segmentID s1.alloc.offset s1.streamSeq batch,
        (appendBatch none batch s1).2, before1, after1, _, file', q1, ?_,
        hs1.append happ ht hsynced hpub.published hbound, ?_, ?_⟩
      · rw [hrot]
        exact Prod.ext hok rfl
      · rw [happ.alloc.segmentID]
        exact hcont
      · rw [happ.alloc.segmentID, happ.kept.streamID]
        exact hs1.placedBehind hrs hrsne hseq
    · exact absurd rfl hnone
  · exact .inl ⟨e, s1, before1, after1, file1, q1, by rw [hrot], hs1, hcont⟩
  · exact absurd rfl hfault

/-- **A commit that is cut off** leaves a torn log. -/
theorem Logging.commitBatch_cut (fault : Fault) (now : UInt64) :
    ∃ h segmentClass file' before' after1 after' rest tail q',
      TornLog cfg (Store.commitBatch fault now batch s).2 h segmentClass file' before' after'
        rest tail q' ∧ Continues s.alloc.segmentID before after h before' after1 ∧
      CutAt s batch (Store.commitBatch fault now batch s).2 h before' after1 after' rest := by
  obtain ⟨rs, hrs, hrsne, hlen⟩ := exists_frames hne hframes
  rw [hlen] at hbound
  have hseq := lt_of_seqBound hbound
  have hunseen := (rotate_madeRoom fault now batch s).unseen
  unfold Store.commitBatch
  rcases hs.rotate fault now batch with ⟨fault', s1, before1, after1, file1, q1, hrot, hs1, hfits,
    hstream, -, hcont⟩ | ⟨e, fault', s1, hrot, hleft⟩ <;> rw [hrot] at hunseen ⊢
  · rw [← hstream] at hseq hbound
    have hoverlay : s1.overlay = s.overlay := hunseen.overlay
    have hplaced := hs1.placedBehind hrs hrsne hseq
    obtain ⟨t, file', happ, -, hresult⟩ := appendBatch_spec fault' hrs hrsne hseq hfits
      hs1.writing.lookup hs1.writing.offset
    have hplaced' : PlacedBehind (appendBatch fault' batch s1).2.streamID s1.alloc.segmentID
        (before1 ++ after1) (batchAt s1.streamSeq rs hrsne hseq) batch
        (placeFrom s1.alloc.segmentID s1.alloc.offset s1.streamSeq batch) := by
      rw [happ.kept.streamID]
      exact hplaced
    -- Behind the barrier, all of the batch is durable.
    have hbehind : file'.synced = file'.bytes → t = (batchAt s1.streamSeq rs hrsne hseq).bytes
        s1.alloc.segmentID s1.streamID file1.bytes.length →
        TornLog cfg (appendBatch fault' batch s1).2 s1.alloc.segmentID s1.alloc.segmentClass file'
          before1 (after1 ++ [.batch (batchAt s1.streamSeq rs hrsne hseq)]) [] [] q1 :=
      fun hsynced ht => (hs1.torn_batch happ hbound).settle hsynced (by
        rw [happ.files.bytes, ht, hs1.writing.bytes_eq, append_nil, happ.kept.streamID,
          segmentBytes_batch])
    rcases hresult with ⟨-, hpub, hsynced, ht⟩ | ⟨e, -, -, hsame | ⟨hput, hsynced, ht⟩⟩
    · exact ⟨_, _, _, _, after1, _, _, _, _, hbehind hsynced ht, hcont,
        .behind hplaced' (by rw [hpub.overlay, hoverlay])⟩
    · exact ⟨_, _, _, _, after1, _, _, _, _, hs1.torn_batch happ hbound, hcont,
        .inside hplaced' (hsame.trans hoverlay)⟩
    · exact ⟨_, _, _, _, after1, _, _, _, _, hbehind hsynced ht, hcont,
        .behind hplaced' (by rw [hput, hoverlay])⟩
  · rcases hleft with ⟨before1, after1, file1, q1, hs1, hcont⟩ | ⟨-, h, cls, file1, before1, after1,
      tail, q1, htorn, hcont⟩
    · exact ⟨_, _, _, _, after1, _, _, _, _, hs1.torn, hcont, .front hunseen.overlay⟩
    · exact ⟨_, _, _, _, after1, _, _, _, _, htorn, hcont, .front hunseen.overlay⟩

end Commit

end TornLog

end Store

namespace SampleNode

/-- A clock that never passes the deadline. -/
def clock : RecoveryClock := ⟨fun _ => false, fun _ => false⟩

theorem clock_quiet : clock.Quiet := ⟨fun _ => rfl, fun _ => rfl⟩

/-- Two segments hold one small record each if the size is 200. -/
def config (size : Nat) : Config := ⟨1, size, ⟨0, 0, 0⟩⟩

end SampleNode

end Nufs.Storage
