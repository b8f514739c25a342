/-
A store that is writing a log.

`Writing` says what holds of a store between two commits: the active file is a
header and a log, the allocator stands at its end, and the next segment number is
free.  Committing extends the log, sealing ends it and starts an empty one.
-/
import Nufs.Proofs.Storage.CrashImage
import Nufs.Proofs.Storage.Seal
import Mathlib.Data.List.Infix

namespace Nufs.Storage

open ByteFile List

namespace Store

/-- The active segment of the store holds a log, and the allocator stands at its end. -/
structure Writing (s : Store) (kept rest : List LogEntry) (file : File) : Prop where
  lookup : s.files.lookup s.alloc.segmentID = some file
  log : LogFile s.streamID s.alloc.segmentID s.alloc.segmentClass file kept rest []
  offset : s.alloc.offset = file.bytes.length
  seq_le : ∀ q ∈ logSeqs (kept ++ rest), q ≤ s.streamSeq
  nextSeg : s.nextSeg = s.alloc.segmentID
  fresh : ∀ id, s.nextSeg < id → s.files.lookup id = none

variable {s : Store} {kept rest : List LogEntry} {file : File}

theorem Writing.bytes_eq (h : Writing s kept rest file) :
    file.bytes = segmentBytes s.streamID s.alloc.segmentID s.alloc.segmentClass (kept ++ rest) := by
  rw [h.log.bytes, append_nil]

variable {rs : List FramedRecord} {footer : SegmentFooter}

theorem seq_lt_batchAt {q seq : UInt64} (hne : rs ≠ []) (hseq : seq.toNat + rs.length < 2 ^ 64)
    (hq : q ≤ seq) : q < (batchAt seq rs hne hseq).seq := by
  have hpos := length_pos_iff.mpr hne
  rw [UInt64.le_iff_toNat_le] at hq
  rw [UInt64.lt_iff_toNat_lt, toNat_batchAt_seq]
  omega

/-- The log with an entry behind it, and how much of it is durable. -/
theorem Writing.extend {s' : Store} {file' : File} {whole t : List UInt8} (e : LogEntry)
    (h : Writing s kept rest file)
    (hfiles : TornAppend s.alloc.segmentID s.files s'.files file whole t file')
    (ht : t = e.bytes s.alloc.segmentID s.streamID file.bytes.length)
    (hstream : s'.streamID = s.streamID) (hid : s'.alloc.segmentID = s.alloc.segmentID)
    (hclass : s'.alloc.segmentClass = s.alloc.segmentClass) (hnext : s'.nextSeg = s.nextSeg)
    (hoffset : s'.alloc.offset = file'.bytes.length)
    (hseqs : (logSeqs (kept ++ rest ++ [e])).Pairwise (· < ·))
    (hle : ∀ q ∈ logSeqs (kept ++ rest ++ [e]), q ≤ s'.streamSeq) (hunamb : e.Unambiguous) :
    (file'.synced = file'.bytes → Writing s' (kept ++ rest ++ [e]) [] file') ∧
      (file'.synced = file.synced → Writing s' kept (rest ++ [e]) file') := by
  have hbytes : file'.bytes = segmentBytes s'.streamID s'.alloc.segmentID s'.alloc.segmentClass
      (kept ++ rest ++ [e]) := by
    rw [hfiles.bytes, ht, hstream, hid, hclass, segmentBytes_concat, ← h.bytes_eq]
  have hlookup : s'.files.lookup s'.alloc.segmentID = some file' := by
    rw [hid]
    exact hfiles.lookup
  have hnext' : s'.nextSeg = s'.alloc.segmentID := by rw [hnext, hid, h.nextSeg]
  have hfresh : ∀ id, s'.nextSeg < id → s'.files.lookup id = none := by
    intro id hlt
    rw [hnext] at hlt
    have hne : id ≠ s.alloc.segmentID := by
      rw [← h.nextSeg]
      exact Nat.ne_of_gt hlt
    rw [hfiles.others id hne]
    exact h.fresh id hlt
  have hall : ∀ e' ∈ kept ++ rest ++ [e], e'.Unambiguous :=
    forall_mem_append.mpr ⟨h.log.unambiguous, forall_mem_singleton.mpr hunamb⟩
  refine ⟨fun hsynced => ?_, fun hsynced => ?_⟩
  · refine ⟨hlookup, ⟨?_, .inr ?_, .inl rfl, ?_, ?_⟩, hoffset, ?_, hnext', hfresh⟩
    · rw [append_nil, append_nil, hbytes]
    · rw [hsynced, hbytes]
    all_goals rwa [append_nil]
  · rw [append_assoc] at hbytes hseqs hle hall
    refine ⟨hlookup, ⟨by rw [append_nil, hbytes], ?_, .inl rfl, hseqs, hall⟩, hoffset, hle,
      hnext', hfresh⟩
    rw [hsynced, hstream, hid, hclass]
    exact h.log.durable

theorem Writing.append {s' : Store} {file' : File} {hne : rs ≠ []}
    {hseq : s.streamSeq.toNat + rs.length < 2 ^ 64} {t : List UInt8} (h : Writing s kept rest file)
    (happ : BatchAppended s s' file (batchAt s.streamSeq rs hne hseq) t file')
    (ht : t = (batchAt s.streamSeq rs hne hseq).bytes s.alloc.segmentID s.streamID
      file.bytes.length) : (file'.synced = file'.bytes →
        Writing s' (kept ++ rest ++ [.batch (batchAt s.streamSeq rs hne hseq)]) [] file') ∧
      (file'.synced = file.synced →
        Writing s' kept (rest ++ [.batch (batchAt s.streamSeq rs hne hseq)]) file') := by
  set b := batchAt s.streamSeq rs hne hseq
  have hoffset : s'.alloc.offset = file'.bytes.length := by
    rw [happ.alloc.offset, h.offset, happ.files.bytes, ht, length_append]
  have hlt : ∀ q ∈ logSeqs (kept ++ rest), q < b.seq := fun q hq =>
    seq_lt_batchAt hne hseq (h.seq_le q hq)
  have hlogseqs : logSeqs (kept ++ rest ++ [.batch b]) = logSeqs (kept ++ rest) ++ [b.seq] := by
    rw [logSeqs_append]
    rfl
  refine h.extend (.batch b) happ.files ht happ.kept.streamID happ.alloc.segmentID
    happ.alloc.segmentClass happ.nextSeg hoffset ?_ ?_ trivial
  · rw [hlogseqs]
    refine pairwise_append.mpr ⟨h.log.seqs, pairwise_singleton _ _, ?_⟩
    intro q hq q' hq'
    obtain rfl := mem_singleton.mp hq'
    exact hlt q hq
  · intro q hq
    rw [hlogseqs, mem_append, mem_singleton] at hq
    rw [happ.streamSeq]
    rcases hq with hq | rfl
    · exact UInt64.le_of_lt (hlt q hq)
    · exact UInt64.le_refl _

/-- Sealing ends the log: all of it is durable, in front of the footer. -/
theorem Writing.sealed_log (h : Writing s kept rest file) (footer : SegmentFooter)
    (hmagic : footer.magic = segmentMagic) :
    LogFile s.streamID s.alloc.segmentID s.alloc.segmentClass
      ⟨file.bytes ++ footer.encode, file.bytes ++ footer.encode⟩ (kept ++ rest) []
      footer.encode where
  bytes := by rw [append_nil, h.bytes_eq]
  durable := .inr (by
    rw [h.bytes_eq]
    exact prefix_append _ _)
  tail := .inr ⟨footer, hmagic, rfl⟩
  seqs := by
    rw [append_nil]
    exact h.log.seqs
  unambiguous := by
    rw [append_nil]
    exact h.log.unambiguous

/-- Sealing starts an empty log. -/
theorem Writing.sealed {files : Dir} (h : Writing s kept rest file) (now : UInt64)
    (hdir : SealedDir s files file footer
      (some (newSegmentHeader (s.nextSeg + 1) s.alloc.segmentClass).encode)) :
    Writing (s.afterSeal files now) [] []
      ⟨(newSegmentHeader (s.nextSeg + 1) s.alloc.segmentClass).encode, []⟩ where
  lookup := hdir.new
  log :=
    { bytes := by simp [segmentBytes, logBytes, afterSeal, Allocator.new]
      durable := .inl rfl
      tail := .inl rfl
      seqs := .nil
      unambiguous := by simp }
  offset := by simp [afterSeal, Allocator.new]
  seq_le := by simp [logSeqs]
  nextSeg := rfl
  fresh := hdir.fresh h.nextSeg h.fresh

/-- A store whose next number is free opens a segment and writes an empty log. -/
theorem newActiveSegment_writing (now : UInt64) (segmentClass : SegmentClass)
    (hfresh : ∀ id, s.nextSeg < id → s.files.lookup id = none) :
    (newActiveSegment none now segmentClass s).1 = .ok () ∧
      Writing (newActiveSegment none now segmentClass s).2.2 [] []
        ⟨(newSegmentHeader (s.nextSeg + 1) segmentClass).encode, []⟩ ∧ ∀ id, id ≠ s.nextSeg + 1 →
        (newActiveSegment none now segmentClass s).2.2.files.lookup id = s.files.lookup id := by
  have hnone := hfresh (s.nextSeg + 1) (Nat.lt_succ_self _)
  obtain ⟨hothers, hnew⟩ := runOps_newFile (newSegmentHeader (s.nextSeg + 1) segmentClass).encode
    none hnone
  rw [runOps_none] at hothers hnew
  obtain ⟨-, hfalse⟩ | ⟨u, -, hnew, hall⟩ := hnew
  · simp at hfalse
  obtain rfl := hall rfl
  simp only [newActiveSegment, runOps_none]
  refine ⟨trivial, ⟨hnew, ⟨?_, .inl rfl, .inl rfl, .nil, by simp⟩, ?_, by simp [logSeqs], rfl, ?_⟩,
    hothers⟩
  · simp [segmentBytes, logBytes, Allocator.new]
  · simp [Allocator.new]
  · intro id hid
    exact (hothers id (Nat.ne_of_gt hid)).trans (hfresh id (Nat.lt_of_succ_lt hid))

/-- The checksum of a file and the footer in front of its checksum field. -/
theorem sealedSegmentCRC_eq {bytes : List UInt8} (more : List UInt8) (footer : SegmentFooter)
    (h : segmentHeaderSize ≤ bytes.length) :
    sealedSegmentCRC (bytes ++ more) bytes.length (footer.encode.take segmentFooterCRCOffset) =
      .ok (crc32c (bytes ++ footer.encode.take segmentFooterCRCOffset)) := by
  have hlen : (footer.encode.take segmentFooterCRCOffset).length = segmentFooterCRCOffset := by
    rw [length_take, footer.length_encode]
    rfl
  unfold sealedSegmentCRC
  rw [if_neg (by rw [hlen]; omega), if_neg (by simp), take_left]

/-- The footer the writer lets through. -/
theorem checkFooter_ok {file : List UInt8} {offset : Nat} {footer' : SegmentFooter}
    (h : checkFooter file offset footer = .ok footer') :
    footer' = { footer with
        segmentCRC := crc32c (file ++ footer.encode.take segmentFooterCRCOffset) } ∧
      footer'.segmentCRC ≠ 0 := by
  unfold checkFooter at h
  by_cases hlen : file.length ≠ offset
  · rw [if_pos hlen] at h
    simp at h
  rw [if_neg hlen] at h
  obtain rfl := not_not.mp hlen
  split at h
  · simp at h
  rename_i crc hcrc
  unfold sealedSegmentCRC at hcrc
  split_ifs at hcrc h with hrange hshort hzero
  rw [take_length] at hcrc
  cases hcrc
  cases h
  exact ⟨rfl, hzero⟩

theorem checkFooter_magic {file : List UInt8} {offset : Nat} {footer' : SegmentFooter}
    (h : checkFooter file offset footer = .ok footer') : footer'.magic = footer.magic := by
  rw [(checkFooter_ok h).1]

theorem exists_checkFooter {file : List UInt8} {offset : Nat} (hoff : offset = file.length)
    (hheader : segmentHeaderSize ≤ file.length)
    (hcrc : crc32c (file ++ footer.encode.take segmentFooterCRCOffset) ≠ 0) :
    ∃ footer', checkFooter file offset footer = .ok footer' := by
  subst hoff
  have hsum := sealedSegmentCRC_eq [] footer hheader
  rw [append_nil] at hsum
  unfold checkFooter
  rw [if_neg (by simp), hsum]
  exact ⟨_, if_neg hcrc⟩

theorem rotate_of_not_fits (fault : Fault) (now : UInt64) {batch : List PendingWrite}
    (hfits : ¬ fits s.alloc batch = true) :
    rotate fault now batch s =
      match sealActiveLocked fault now s with
      | (.error e, fault, s) => (.error e, fault, s)
      | (.ok _, fault, s) =>
        if fits s.alloc batch then (.ok (), fault, s) else (.error .segmentFull, fault, s) := by
  rw [rotate]
  exact if_neg hfits

/-- **Making room for a batch.**  The batch fits as it is, or the footer is refused, or the
segment is sealed. -/
theorem rotate_cases (fault : Fault) (now : UInt64) (batch : List PendingWrite)
    (h : Writing s kept rest file) :
    (fits s.alloc batch = true ∧ rotate fault now batch s = (.ok (), fault, s)) ∨
      fits s.alloc batch = false ∧ ((∃ e, rotate fault now batch s = (.error e, fault, s)) ∨
        ∃ footer r fault' s', footer.magic = segmentMagic ∧
          Seals fault now s file footer r fault' s' ∧ rotate fault now batch s =
            (r.bind fun _ => if fits s'.alloc batch then .ok () else .error .segmentFull, fault',
              s')) := by
  by_cases hfits : fits s.alloc batch = true
  · exact .inl ⟨hfits, by rw [rotate, if_pos hfits]⟩
  refine .inr ⟨by simpa using hfits, ?_⟩
  rw [rotate_of_not_fits fault now hfits]
  rcases sealActiveLocked_cases fault now h.lookup h.offset (h.fresh _ (Nat.lt_succ_self _)) with
    ⟨e, -, hseal⟩ | ⟨footer, r, fault', s', hseal, hcheck, hcase⟩
  · exact .inl ⟨e, by rw [hseal]⟩
  refine .inr ⟨footer, r, fault', s', checkFooter_magic hcheck, hcase, ?_⟩
  rw [hseal]
  cases r with
  | error e => rfl
  | ok _ =>
    dsimp only [Except.bind]
    split_ifs <;> rfl

end Store

end Nufs.Storage
