/-
Recovery finds the entries of a log again.

The walk of `RecoverFromSegmentLog` is followed entry by entry over the bytes of a
log.  A well-framed record at the walk's offset is accepted and becomes pending; the
commit of a batch closes exactly the records before it; a marker moves the boundary.
A record or a commit of which only some first bytes are there is always refused in
the same way, as an unexpected end of file, whichever byte it was cut at.
-/
import Nufs.Storage.Recover
import Nufs.Storage.Log
import Nufs.Proofs.Storage.Format

namespace Nufs.Storage

open Layout ByteFile List RecordHeader Nat

/-! ### Records -/

/-- The index of contiguous entries passes the walk, which sums up their lengths. -/
theorem checkFrameIndex_encode (as : List UInt8) (es : List FrameIndexEntry) (storedLen : Nat)
    {stored expected : Nat} (hc : FrameIndex.Contiguous es expected)
    (hle : stored + FrameIndex.storedTotal es ≤ storedLen) :
    checkFrameIndex (as ++ FrameIndex.encode es) storedLen es.length as.length stored expected =
      .ok (stored + FrameIndex.storedTotal es) := by
  induction es generalizing as stored expected with
  | nil => simp [checkFrameIndex, FrameIndex.storedTotal]
  | cons e es ih =>
    obtain ⟨hoff, hrest⟩ := hc
    have htotal : FrameIndex.storedTotal (e :: es) =
        e.storedLen.toNat + FrameIndex.storedTotal es := by
      simp [FrameIndex.storedTotal]
    rw [htotal] at hle ⊢
    have hentry := FrameIndexEntry.decodeAt_encode as (FrameIndex.encode es) e
    have hbytes : as ++ FrameIndex.encode (e :: es) =
        as ++ (e.encode ++ FrameIndex.encode es) := rfl
    have h0 : u32At (as ++ (e.encode ++ FrameIndex.encode es)) as.length = e.offset :=
      congrArg FrameIndexEntry.offset hentry
    have h4 : u32At (as ++ (e.encode ++ FrameIndex.encode es)) (as.length + 4) = e.storedLen :=
      congrArg FrameIndexEntry.storedLen hentry
    have hnext : as.length + frameIndexEntrySize = (as ++ e.encode).length := by simp
    have hok : ¬ (e.offset.toNat ≠ expected ∨ storedLen - stored < e.storedLen.toNat) := by
      omega
    rw [length_cons, checkFrameIndex, hbytes, h0, h4, if_neg hok, hnext,
      ← append_assoc, ih _ hrest (by omega), add_assoc]

namespace FramedRecord

variable (r : FramedRecord)

theorem bytes_eq : r.bytes = r.header.encode ++ (r.index ++ (r.stored ++ r.trailer)) := by
  simp [bytes, encodeRecordFramed, trailer]

@[simp] theorem length_index :
    r.index.length = r.header.frameCount.toNat * frameIndexEntrySize := by
  rw [index, FrameIndex.length_encode, r.frameCount_eq]

@[simp] theorem length_trailer : r.trailer.length = recordTrailerSize :=
  RecordTrailer.length_encode _

theorem length_bytes : r.bytes.length = r.header.framing := by
  simp [bytes_eq, RecordHeader.framing, r.storedLen_eq]
  omega

theorem trailer_eq : r.trailer = RecordTrailer.encode (UInt32.ofNat r.header.framing) := by
  simp only [trailer, recordFraming, RecordHeader.framing, UInt32.ofNat_add, UInt32.ofNat_toNat]

theorem magic_bytes : u32At r.bytes 0 = recordMagic := by
  have hlen : r.header.encode.length = 55 := r.header.length_encode
  have hmagic : u32At r.header.encode 0 = r.header.magic := u32At_layout rfl
  rw [r.bytes_eq, u32At_append_left _ _ (by omega), hmagic, r.magic_eq]

/-- The first five bytes of a record: the magic number and the version. -/
theorem take_five : u32At (r.bytes.take 5) 0 = recordMagic ∧
    u8At (r.bytes.take 5) 4 = formatVersion := by
  have hlen : r.header.encode.length = 55 := r.header.length_encode
  have hversion : u8At r.header.encode 4 = r.header.version := u8At_layout rfl
  refine ⟨by rw [u32At_take _ (by omega), r.magic_bytes], ?_⟩
  rw [u8At, fieldAt_take _ (by omega), ← u8At, r.bytes_eq, u8At_append_left _ _ (by omega),
    hversion, r.version_eq]

/-! Where the parts of a record are found in a file. -/

variable (pre post : List UInt8) (r : FramedRecord)

theorem read_five : readFullAt (pre ++ (r.bytes ++ post)) 5 pre.length = some (r.bytes.take 5) := by
  refine readFullAt_take pre r.bytes post ?_
  rw [length_bytes, RecordHeader.framing, recordHeaderSize]
  omega

theorem read_header :
    readFullAt (pre ++ (r.bytes ++ post)) recordHeaderSize pre.length = some r.header.encode := by
  have h := readFullAt_append pre r.header.encode (r.index ++ (r.stored ++ r.trailer) ++ post)
  rwa [length_encode, ← append_assoc r.header.encode, ← bytes_eq] at h

theorem read_index :
    readFullAt (pre ++ (r.bytes ++ post)) (r.header.frameCount.toNat * frameIndexEntrySize)
      (pre.length + recordHeaderSize) = some r.index := by
  have h := readFullAt_append (pre ++ r.header.encode) r.index (r.stored ++ r.trailer ++ post)
  rw [length_index, length_append, length_encode] at h
  rw [← h, bytes_eq]
  simp only [append_assoc]

theorem read_trailer : readFullAt (pre ++ (r.bytes ++ post)) recordTrailerSize
      (pre.length + recordHeaderSize + r.header.frameCount.toNat * frameIndexEntrySize +
        r.header.storedLen.toNat) = some r.trailer := by
  have h := readFullAt_append (pre ++ r.header.encode ++ r.index ++ r.stored) r.trailer post
  simp only [length_append, length_encode, length_index, length_trailer, ← r.storedLen_eq] at h
  rw [← h, bytes_eq]
  simp only [append_assoc]

/-- The checks on a header's own fields that `checkRecord` makes do not refuse the record. -/
theorem header_checks : ¬ 2 ^ 20 < r.header.frameCount.toNat * frameIndexEntrySize ∧
    ¬ (r.header.frameCount = 0 ∧ r.header.storedLen ≠ 0) ∧ ¬ (r.header.op = .delete ∧
      (r.header.storedLen ≠ 0 ∨ r.header.logicalLen ≠ 0 ∨ r.header.frameCount ≠ 0)) := by
  have hzero : r.entries = [] → r.header.frameCount = 0 ∧ r.header.storedLen = 0 := by
    intro hnil
    have hcount := r.frameCount_eq
    have htotal := r.storedTotal_eq
    have hstored := r.storedLen_eq
    rw [hnil] at hcount htotal
    refine ⟨UInt16.toNat_inj.mp (by simpa using hcount), UInt32.toNat_inj.mp ?_⟩
    simp [hstored, ← htotal, FrameIndex.storedTotal]
  refine ⟨?_, ?_, ?_⟩
  · have hlt := r.header.frameCount.toNat_lt
    rw [frameIndexEntrySize]
    omega
  · rintro ⟨hcount, hstored⟩
    have hnil : r.entries = [] := by
      rw [← length_eq_zero_iff, ← r.frameCount_eq, hcount]
      rfl
    exact hstored (hzero hnil).2
  · rintro ⟨hop, hany⟩
    obtain ⟨hnil, hlogical⟩ := r.delete_empty hop
    obtain ⟨hcount, hstored⟩ := hzero hnil
    simp [hcount, hstored, hlogical] at hany

end FramedRecord

variable (pre post : List UInt8) (r : FramedRecord)

theorem checkRecordHeader_bytes :
    checkRecordHeader (pre ++ (r.bytes ++ post)) pre.length = .ok r.header := by
  obtain ⟨hmagic, hversion⟩ := r.take_five
  obtain ⟨hsmall, hzeroFrames, hdelete⟩ := r.header_checks
  have hdecode := decode_encode r.header r.magic_eq r.version_eq
  have hfits : ¬ (pre ++ (r.bytes ++ post)).length < pre.length + r.header.framing := by
    simp [r.length_bytes]
  have hold : formatVersion ≠ 2 := by decide
  simp only [checkRecordHeader, r.read_five, hmagic, hversion, r.read_header, hdecode, ne_eq,
    not_true_eq_false, hold, if_false, if_neg hsmall, if_neg hzeroFrames, if_neg hdelete,
    if_neg hfits]

theorem checkRecordBody_bytes :
    checkRecordBody (pre ++ (r.bytes ++ post)) pre.length r.header = .ok () := by
  have hframes : checkFrameIndex r.index r.header.storedLen.toNat r.header.frameCount.toNat 0 0 0 =
      .ok r.header.storedLen.toNat := by
    have hle : 0 + FrameIndex.storedTotal r.entries ≤ r.header.storedLen.toNat := by
      rw [r.storedTotal_eq, r.storedLen_eq, zero_add]
    have h := checkFrameIndex_encode [] r.entries _ r.contiguous hle
    rw [r.storedTotal_eq, ← r.storedLen_eq, ← r.frameCount_eq, zero_add] at h
    exact h
  have htrailer := RecordTrailer.decode_encode (UInt32.ofNat r.header.framing)
  rw [← r.trailer_eq] at htrailer
  have hcrc : crc32c r.index = r.header.frameIndexCRC := r.frameIndexCRC_eq.symm
  simp only [checkRecordBody, r.read_index, hcrc, hframes, r.read_trailer, htrailer, ne_eq,
    not_true_eq_false, if_false]

/-- **A well-framed record is accepted** wherever it stands. -/
theorem checkRecord_bytes : checkRecord (pre ++ (r.bytes ++ post)) pre.length = .ok r.header := by
  simp only [checkRecord, checkRecordHeader_bytes, checkRecordBody_bytes]

/-- **A record cut short is refused** as an unexpected end of file, wherever it was cut. -/
theorem checkRecord_torn {k : Nat} (hk : k < r.bytes.length) :
    checkRecord (pre ++ r.bytes.take k) pre.length = .error .unexpectedEOF := by
  have hlen : (r.bytes.take k).length = k := length_take_of_le (le_of_lt hk)
  have hshort : ∀ n, k < n → readFullAt (pre ++ r.bytes.take k) n pre.length = none := fun n hn =>
    readFullAt_short pre (by rwa [hlen])
  have hread : ∀ n, n ≤ k →
      readFullAt (pre ++ r.bytes.take k) n pre.length = some (r.bytes.take n) := by
    intro n hn
    rw [readFullAt_end pre (by rwa [hlen]), take_take, min_eq_left hn]
  have hheader : checkRecordHeader (pre ++ r.bytes.take k) pre.length = .error .unexpectedEOF := by
    by_cases h5 : k < 5
    · simp only [checkRecordHeader, hshort 5 h5]
    obtain ⟨hmagic, hversion⟩ := r.take_five
    have hold : formatVersion ≠ 2 := by decide
    by_cases h55 : k < recordHeaderSize
    · simp only [checkRecordHeader, hread 5 (by omega), hmagic, hversion, ne_eq,
        not_true_eq_false, hold, if_false, hshort _ h55]
    -- The header is whole: it announces more bytes than there are.
    obtain ⟨hsmall, hzeroFrames, hdelete⟩ := r.header_checks
    have hdecode := decode_encode r.header r.magic_eq r.version_eq
    have htake : r.bytes.take recordHeaderSize = r.header.encode := by
      rw [r.bytes_eq, ← r.header.length_encode, take_left]
    have hfits : (pre ++ r.bytes.take k).length < pre.length + r.header.framing := by
      rw [length_append, hlen, ← r.length_bytes]
      omega
    simp only [checkRecordHeader, hread 5 (by omega), hmagic, hversion, ne_eq,
      not_true_eq_false, hold, if_false, hread _ (not_lt.mp h55), htake, hdecode,
      if_neg hsmall, if_neg hzeroFrames, if_neg hdelete, if_pos hfits]
  simp only [checkRecord, hheader]

/-! ### One entry at a time -/

section Entries

variable {σ : Type} (segID : SegmentID) (opts : RecoverOptions)
  (apply : CommitDescriptor → σ → Except Err σ)

/-- The state with records that stand one after the other made pending. -/
def RecoveryState.pushRecords (off : Nat) (rs : List FramedRecord) (s : RecoveryState σ) :
    RecoveryState σ :=
  { s with
    records := s.records + rs.length
    pendingBytes := s.pendingBytes + (recordsBytes rs).length
    pending := s.pending ++ recordsDescriptors segID off rs
    clockReads := s.clockReads + rs.length }

variable {segID opts apply}

variable (pre : List UInt8) (r : FramedRecord) (post : List UInt8) (c : BatchCommit)

theorem FramedRecord.length_bytes_ge : 67 ≤ r.bytes.length := by
  rw [r.length_bytes, RecordHeader.framing, recordHeaderSize, recordTrailerSize]
  omega

/-! The parser tells the entries apart by their first four bytes. -/

section Heads

variable {t : List UInt8} (s : RecoveryState σ)

theorem parseEntry_headless (h : t.length < 4) :
    parseEntry segID opts (some apply) (pre ++ t) pre.length s = (.error .unexpectedEOF, s) := by
  simp only [parseEntry, readFullAt_short pre h]

theorem parseEntry_of_record (h : 4 ≤ t.length) (hm : u32At t 0 = recordMagic) :
    parseEntry segID opts (some apply) (pre ++ t) pre.length s =
      parseRecord segID opts (pre ++ t) pre.length s := by
  have hne : recordMagic ≠ batchCommitMagic := by decide
  simp only [parseEntry, readFullAt_end pre h, u32At_take t (le_refl 4), hm, hne, if_false,
    ne_eq, not_true_eq_false]

theorem parseEntry_of_commit (h : 4 ≤ t.length) (hm : u32At t 0 = batchCommitMagic) :
    parseEntry segID opts (some apply) (pre ++ t) pre.length s =
      parseCommit opts (some apply) (pre ++ t) pre.length s := by
  simp only [parseEntry, readFullAt_end pre h, u32At_take t (le_refl 4), hm, if_true]

theorem parseEntry_at_record : parseEntry segID opts (some apply) (pre ++ (r.bytes ++ post))
      pre.length s = parseRecord segID opts (pre ++ (r.bytes ++ post)) pre.length s := by
  have hge := r.length_bytes_ge
  refine parseEntry_of_record pre s ?_ ?_
  · rw [length_append]
    omega
  · rw [u32At_append_left _ _ (by omega), r.magic_bytes]

theorem BatchCommit.magic_encode : u32At c.encode 0 = c.magic := u32At_layout rfl

theorem parseEntry_at_commit (hm : c.magic = batchCommitMagic) :
    parseEntry segID opts (some apply) (pre ++ (c.encode ++ post)) pre.length s =
      parseCommit opts (some apply) (pre ++ (c.encode ++ post)) pre.length s := by
  have hlen : c.encode.length = 42 := c.length_encode
  refine parseEntry_of_commit pre s ?_ ?_
  · rw [length_append]
    omega
  · rw [u32At_append_left _ _ (by omega), c.magic_encode, hm]

end Heads

/-- A well-framed record becomes pending, if the limit allows one more. -/
theorem parseEntry_record (r : FramedRecord) (s : RecoveryState σ) :
    parseEntry segID opts (some apply) (pre ++ (r.bytes ++ post)) pre.length
        { s with clockReads := s.clockReads + 1 } =
      if s.records = recoveryRecordLimit opts then
        (.error .recoveryBudgetExceeded, { s with clockReads := s.clockReads + 1 })
      else
        (.ok ⟨pre.length + r.bytes.length, false, false⟩, s.pushRecords segID pre.length [r]) := by
  simp only [parseEntry_at_record, parseRecord, checkRecord_bytes, ← r.length_bytes]
  simp [RecoveryState.pushRecords, recordsBytes, recordsDescriptors, RecordHeader.descriptor,
    FramedRecord.descriptor]

variable {k off : Nat}

/-- A record or commit of which only the first bytes are there ends the walk. -/
theorem parseEntry_torn_record (hk : k < r.bytes.length) (s : RecoveryState σ) :
    parseEntry segID opts (some apply) (pre ++ r.bytes.take k) pre.length s =
      (.error .unexpectedEOF, s) := by
  have hlen : (r.bytes.take k).length = k := length_take_of_le (le_of_lt hk)
  by_cases h4 : k < 4
  · exact parseEntry_headless pre s (by rwa [hlen])
  rw [parseEntry_of_record pre s (by omega)
    (by rw [u32At_take _ (by omega), r.magic_bytes])]
  simp only [parseRecord, checkRecord_torn pre r hk]

theorem parseEntry_torn_commit (hm : c.magic = batchCommitMagic) (hk : k < batchCommitSize)
    (s : RecoveryState σ) :
    parseEntry segID opts (some apply) (pre ++ c.encode.take k) pre.length s =
      (.error .unexpectedEOF, s) := by
  have hlen : (c.encode.take k).length = k :=
    length_take_of_le (by rw [c.length_encode]; exact le_of_lt hk)
  by_cases h4 : k < 4
  · exact parseEntry_headless pre s (by rwa [hlen])
  rw [parseEntry_of_commit pre s (by omega)
    (by rw [u32At_take _ (by omega), c.magic_encode, hm])]
  simp only [parseCommit, checkCommit,
    readFullAt_short pre (show _ < batchCommitSize by rwa [hlen])]

variable {sink : σ} {s s' : RecoveryState σ}

/-- The replay loop does what replaying does, and counts. -/
theorem applyPending_ok (hclock : ∀ n, opts.expired n = false) (committedEnd : Nat) (seq : UInt64)
    (ds : List CommitDescriptor) (s : RecoveryState σ)
    (happly : replay apply ds s.sink = .ok sink) :
    applyPending opts apply committedEnd seq ds s = (.ok (), { s with
        sink, applied := s.applied + ds.length, clockReads := s.clockReads + ds.length }) := by
  induction ds generalizing s with
  | nil =>
    obtain rfl : s.sink = sink := by simpa [replay] using happly
    rfl
  | cons d ds ih =>
    rw [replay] at happly
    cases hd : apply d s.sink with
    | error e => simp [hd] at happly
    | ok sink' =>
      rw [hd] at happly
      simp only [applyPending, hclock, hd, Bool.false_eq_true, if_false]
      rw [ih _ happly]
      simp only [length_cons, Prod.mk.injEq, RecoveryState.mk.injEq, true_and]
      omega

/-- The state after the commit of the pending records, which the sink has taken. -/
def RecoveryState.commitPending (seq : UInt64) (sink : σ) (s : RecoveryState σ) : RecoveryState σ :=
  { s with
    sink
    pending := []
    pendingBytes := 0
    lastCommittedSeq := seq
    commits := s.commits + 1
    applied := s.applied + s.pending.length
    replayBytes := s.replayBytes + s.pendingBytes + batchCommitSize
    clockReads := s.clockReads + 2 * s.pending.length + 1 }

theorem BatchCommit.read_encode :
    readFullAt (pre ++ (c.encode ++ post)) batchCommitSize pre.length = some c.encode := by
  have h := readFullAt_append pre c.encode post
  rwa [c.length_encode] at h

section Fits

variable (s : RecoveryState σ) (hm : c.magic = batchCommitMagic) (hv : c.version = formatVersion)
  (hstream : c.streamID = opts.streamID) (hseq : s.lastCommittedSeq < c.seq)
  (hcount : c.recordCount = UInt32.ofNat s.pending.length)
  (hfirst : s.pending.head?.map (fun d => .ofNat d.offset) = some c.firstOffset)
  (hlast : c.lastOffset = UInt64.ofNat pre.length)
include hm hv hstream hseq hcount hfirst hlast

/-- The structural checks pass for a commit that fits the pending records. -/
theorem checkCommit_encode :
    checkCommit opts (pre ++ (c.encode ++ post)) pre.length s = .ok c := by
  have hold : formatVersion ≠ 2 := by decide
  have hlt : ¬ c.seq ≤ s.lastCommittedSeq := UInt64.not_le.mpr hseq
  simp only [checkCommit, c.read_encode, bind, Except.bind, c.decode_encode hm, hv, hold, ne_eq,
    not_true_eq_false, if_false, hstream, hlt, hcount, hfirst, hlast, or_self]

variable (segID opts apply) in
/-- A commit that fits the pending records hands them to the sink and closes the batch, if the
limit allows its bytes. -/
theorem parseEntry_commit (hclock : ∀ n, opts.expired n = false) (hsafe : opts.safeSeq < c.seq)
    (hcrc : c.descriptorsCRC = descriptorCRC s.pending)
    (happly : replay apply s.pending s.sink = .ok sink) :
    parseEntry segID opts (some apply) (pre ++ (c.encode ++ post)) pre.length
        { s with clockReads := s.clockReads + 1 } =
      if s.replayBytes + (s.pendingBytes + batchCommitSize) ≤ (recoveryByteLimits opts).1 then
        (.ok ⟨pre.length + batchCommitSize, true, false⟩, s.commitPending c.seq sink)
      else (.error .recoveryBudgetExceeded,
        { s with clockReads := s.clockReads + 1 + s.pending.length }) := by
  have hcheck := checkCommit_encode pre post c { s with clockReads := s.clockReads + 1 }
    hm hv hstream hseq hcount hfirst hlast
  have hnotSafe : ¬ c.seq ≤ opts.safeSeq := UInt64.not_le.mpr hsafe
  have hlooks : ∀ c n, ((List.range n).any fun i => opts.expired (c + i)) = false := by
    simp [hclock]
  simp only [parseEntry_at_commit pre post c _ hm, parseCommit, hcheck, hlooks,
    Bool.false_eq_true, if_false, pendingDescriptorsCRC_eq, hcrc, ne_eq,
    not_true_eq_false, hnotSafe, addReplayBytes]
  split_ifs with hbytes
  · dsimp only
    rw [applyPending_ok hclock _ _ _ { s with
        replayBytes := s.replayBytes + (s.pendingBytes + batchCommitSize)
        clockReads := s.clockReads + 1 + s.pending.length } happly]
    simp only [closeBatch, RecoveryState.commitPending, Prod.mk.injEq, RecoveryState.mk.injEq,
      true_and]
    omega
  · rfl

end Fits

/-- The first word of a journal record is the high half of its sequence. -/
theorem CommitRecord.first_word (m : CommitRecord) :
    u32At m.encode 0 = UInt32.ofNat (m.seq.toNat / 2 ^ 32) := by
  have hbytes : m.encode = be 4 (m.seq.toNat / 256 ^ 4) ++ m.encode.drop 4 := by
    have hsplit : m.encode = be 8 m.seq.toNat ++ m.encode.drop 8 := rfl
    rw [hsplit, be_add 4 4]
    simp
  have hfield : fieldAt (be 4 (m.seq.toNat / 256 ^ 4)) 0 4 = m.seq.toNat / 256 ^ 4 % 256 ^ 4 := by
    rw [fieldAt, drop_zero, take_of_length_le (by simp), ofBE_be]
  have hlt : m.seq.toNat / 256 ^ 4 < 256 ^ 4 := by
    have := m.seq.toNat_lt
    omega
  rw [hbytes, u32At_append_left _ _ (by simp), u32At, hfield, mod_eq_of_lt hlt,
    show (256 : Nat) ^ 4 = 2 ^ 32 by norm_num]

/-- Stated for any buffer, so that nothing evaluates the checksum of an encoded record. -/
theorem indexSafeAt_eq {f buf : List UInt8} {m : CommitRecord}
    (hread : readFullAt f commitRecordSize off = some buf)
    (hdecode : CommitRecord.decode buf = .ok m) (hop : m.op = .indexSafe) :
    indexSafeAt f off = some m := by
  simp only [indexSafeAt, hread, hdecode, hop, if_true]

theorem indexSafeAt_encode {m : CommitRecord} (hop : m.op = .indexSafe) :
    indexSafeAt (pre ++ (m.encode ++ post)) pre.length = some m := by
  have hread := readFullAt_append pre m.encode post
  rw [m.length_encode] at hread
  exact indexSafeAt_eq hread m.decode_encode hop

/-- What the parser reads first of a marker. -/
theorem CommitRecord.read_first (m : CommitRecord) :
    ∃ buf, readFullAt (pre ++ (m.encode ++ post)) 4 pre.length = some buf ∧
      u32At buf 0 = UInt32.ofNat (m.seq.toNat / 2 ^ 32) := by
  have hlen : m.encode.length = 73 := m.length_encode
  refine ⟨_, readFullAt_take pre m.encode post (by omega), ?_⟩
  rw [u32At_take _ (le_refl 4), m.first_word]

variable (segID opts apply) in
/-- A marker moves the boundary, if the limit allows its bytes. -/
theorem parseEntry_marker (m : CommitRecord) (hop : m.op = .indexSafe)
    (hunamb : (LogEntry.marker m hop).Unambiguous) (s : RecoveryState σ)
    (hpending : s.pending = []) :
    parseEntry segID opts (some apply) (pre ++ (m.encode ++ post)) pre.length s =
      if s.replayBytes + commitRecordSize ≤ (recoveryByteLimits opts).1 then
        (.ok ⟨pre.length + commitRecordSize, false, true⟩, { s with
          safeSeq := max m.seq s.safeSeq
          replayBytes := s.replayBytes + commitRecordSize })
      else (.error .recoveryBudgetExceeded, { s with safeSeq := max m.seq s.safeSeq }) := by
  obtain ⟨buf, hread, hword⟩ := m.read_first pre post
  obtain ⟨hcommit, hrecord⟩ := hunamb
  simp only [parseEntry, hread, hword, hcommit, if_false, ne_eq, hrecord, not_false_eq_true,
    if_true, indexSafeAt_encode pre post hop, hpending, not_true_eq_false, addReplayBytes]
  split_ifs <;> rfl

/-! ### States of the walk -/

variable (f : List UInt8)

theorem walk_end (fuel : Nat) (s : RecoveryState σ) (hoff : f.length ≤ off) :
    walk segID opts (some apply) f fuel off s = (.stop, s) := by
  cases fuel with
  | zero => rfl
  | succ fuel => rw [walk, if_neg (not_lt.mpr hoff)]

theorem RecoveryState.pushRecords_cons (off : Nat) (r : FramedRecord) (rs : List FramedRecord)
    (s : RecoveryState σ) :
    (s.pushRecords segID off [r]).pushRecords segID (off + r.bytes.length) rs =
      s.pushRecords segID off (r :: rs) := by
  simp only [pushRecords, recordsBytes, recordsDescriptors, flatMap_cons, flatMap_nil,
    append_nil, length_append, length_cons, length_nil, append_assoc,
    singleton_append, RecoveryState.mk.injEq, true_and]
  omega

theorem length_recordsDescriptors (off : Nat) (rs : List FramedRecord) :
    (recordsDescriptors segID off rs).length = rs.length := by
  induction rs generalizing off with
  | nil => rfl
  | cons r rs ih => simp [recordsDescriptors, ih]

theorem Batch.length_bytes (streamID : UInt8) (off : Nat) (b : Batch) :
    (b.bytes segID streamID off).length = (recordsBytes b.records).length + batchCommitSize := by
  simp [Batch.bytes]

variable (segID) in
/-- The state after an entry that stands at `off`, when the sink has taken what it holds. -/
def RecoveryState.afterEntry (streamID : UInt8) (off : Nat) (e : LogEntry) (sink : σ)
    (s : RecoveryState σ) : RecoveryState σ :=
  { s with
    sink
    lastValid := off + (e.bytes segID streamID off).length
    lastCommittedSeq := e.seq?.getD s.lastCommittedSeq
    safeSeq := logSafeSeq s.safeSeq [e]
    commits := s.commits + e.seq?.toList.length
    applied := s.applied + (e.descriptors segID off).length
    records := s.records + (e.descriptors segID off).length
    replayBytes := s.replayBytes + (e.bytes segID streamID off).length
    clockReads := s.clockReads + 3 * (e.descriptors segID off).length + 1 }

variable (segID) in
/-- The state after a log whose first entry stands at `off`, when the sink has taken it all. -/
def RecoveryState.afterLog (streamID : UInt8) (off : Nat) (es : List LogEntry) (sink : σ)
    (s : RecoveryState σ) : RecoveryState σ :=
  { s with
    sink
    lastValid := off + (logBytes segID streamID off es).length
    lastCommittedSeq := (logSeqs es).getLastD s.lastCommittedSeq
    safeSeq := logSafeSeq s.safeSeq es
    commits := s.commits + (logSeqs es).length
    applied := s.applied + (logDescriptors segID streamID off es).length
    records := s.records + (logDescriptors segID streamID off es).length
    replayBytes := s.replayBytes + (logBytes segID streamID off es).length
    clockReads := s.clockReads + 3 * (logDescriptors segID streamID off es).length + es.length }

theorem RecoveryState.afterLog_cons (streamID : UInt8) (off : Nat) (e : LogEntry)
    (es : List LogEntry) (sink sink' : σ) (s : RecoveryState σ) :
    (s.afterEntry segID streamID off e sink).afterLog segID streamID
        (off + (e.bytes segID streamID off).length) es sink' =
      s.afterLog segID streamID off (e :: es) sink' := by
  cases e with
  | batch b =>
    simp only [afterLog, afterEntry, logBytes, logDescriptors, logSeqs, logSafeSeq, LogEntry.seq?,
      filterMap_cons, Option.getD_some, Option.toList_some, length_append, length_cons, length_nil,
      getLastD_cons, RecoveryState.mk.injEq, true_and]
    omega
  | marker m hop =>
    simp only [afterLog, afterEntry, logBytes, logDescriptors, logSeqs, logSafeSeq,
      LogEntry.seq?, filterMap_cons, Option.getD_none, Option.toList_none,
      length_append, length_cons, length_nil, RecoveryState.mk.injEq, true_and]
    omega

theorem replay_append {ds ds' : List CommitDescriptor} {sink' : σ}
    (h : replay apply (ds ++ ds') sink = .ok sink') :
    ∃ mid, replay apply ds sink = .ok mid ∧ replay apply ds' mid = .ok sink' := by
  induction ds generalizing sink with
  | nil => exact ⟨sink, rfl, h⟩
  | cons d ds ih =>
    simp only [cons_append, replay] at h ⊢
    cases hd : apply d sink with
    | error e => simp [hd] at h
    | ok mid =>
      rw [hd] at h
      exact ih h

/-- Two states that recovery reports in the same way. -/
def RecoveryState.SameReport (s s' : RecoveryState σ) : Prop :=
  s.sink = s'.sink ∧ ∀ size start ready, s.result size start ready = s'.result size start ready

theorem RecoveryState.SameReport.lastValid_eq (h : s.SameReport s') : s.lastValid = s'.lastValid :=
  congrArg RecoverResult.lastCommittedOffset (h.2 0 0 false)

/-- An error of the parser that ends the walk without failing recovery. -/
structure Err.EndsWalk (e : Err) : Prop where
  notBudget : e.isBudgetExceeded = false
  notApply : ∀ err committedEnd seq, e ≠ .recoveryApply err committedEnd seq
  notFormat : ∀ m, e ≠ .unsupportedRecoveryFormat m

/-- The errors with which the parser refuses an entry. -/
def Err.Stops (e : Err) : Prop := e = .unexpectedEOF ∨ ∃ m, e = .message m

theorem Err.Stops.endsWalk {e : Err} (h : e.Stops) : e.EndsWalk := by
  rcases h with rfl | ⟨m, rfl⟩
  · exact ⟨rfl, by simp, by simp⟩
  · exact ⟨rfl, by simp, by simp⟩

theorem walk_refuse {f : List UInt8} (fuel : Nat) {e : Err} (he : e.EndsWalk)
    (hclock : ¬ opts.expired s.clockReads = true) (hparse : parseEntry segID opts (some apply) f off
      { s with clockReads := s.clockReads + 1 } = (.error e, s')) (hoff : off < f.length) :
    walk segID opts (some apply) f (fuel + 1) off s = (.stop, s') := by
  rw [walk, if_pos hoff, if_neg hclock, hparse]
  simp only [he.notBudget, if_neg Bool.false_ne_true]
  cases e with
  | recoveryApply err committedEnd seq => exact absurd rfl (he.notApply err committedEnd seq)
  | unsupportedRecoveryFormat m => exact absurd rfl (he.notFormat m)
  | _ => rfl

/-! ### The walk over a log -/

/-- The limits allow this many more records and bytes. -/
def RecoveryState.Affords (opts : RecoverOptions) (s : RecoveryState σ) (records bytes : Nat) :
    Prop :=
  s.records + records ≤ recoveryRecordLimit opts ∧
    s.replayBytes + bytes ≤ (recoveryByteLimits opts).1

/-- One walk goes on as another where it can afford to, and ends without budget where it
cannot. -/
def GoesOn (affords : Prop) (r r' : WalkEnd × RecoveryState σ) : Prop :=
  (affords ∧ r = r') ∨ ¬ affords ∧ r.1 = .fail true .recoveryBudgetExceeded

theorem GoesOn.trans {a b c : Prop} {r r' r'' : WalkEnd × RecoveryState σ}
    (h : GoesOn a r r') (h' : a → GoesOn b r' r'') (hc : c ↔ a ∧ b) : GoesOn c r r'' := by
  rcases h with ⟨ha, rfl⟩ | ⟨ha, hspent⟩
  · rcases h' ha with ⟨hb, heq⟩ | ⟨hb, hspent⟩
    · exact .inl ⟨hc.mpr ⟨ha, hb⟩, heq⟩
    · exact .inr ⟨fun h => hb (hc.mp h).2, hspent⟩
  · exact .inr ⟨fun h => ha (hc.mp h).1, hspent⟩

/-- A walk that ends and changes nothing it reports, unless more records are seen than the limit
allows. -/
def StopsWalk (opts : RecoverOptions) (s : RecoveryState σ) (w : Nat)
    (r : WalkEnd × RecoveryState σ) : Prop :=
  (∃ s', r = (.stop, s') ∧ s.SameReport s') ∨
    recoveryRecordLimit opts < s.records + w ∧ r.1 = .fail true .recoveryBudgetExceeded

variable (hclock : ∀ n, opts.expired n = false)
include hclock

theorem walk_ok {fuel : Nat} (hoff : off < f.length) {entry : ParsedEntry}
    (hparse : parseEntry segID opts (some apply) f off { s with clockReads := s.clockReads + 1 } =
      (.ok entry, s')) :
    walk segID opts (some apply) f (fuel + 1) off s = walk segID opts (some apply) f fuel entry.next
        (if entry.commit || entry.indexSafe then { s' with lastValid := entry.next } else s') := by
  rw [walk, if_pos hoff, hclock, if_neg Bool.false_ne_true, hparse]

theorem walk_spent {fuel : Nat} (hoff : off < f.length)
    (hparse : parseEntry segID opts (some apply) f off { s with clockReads := s.clockReads + 1 } =
      (.error .recoveryBudgetExceeded, s')) :
    (walk segID opts (some apply) f (fuel + 1) off s).1 = .fail true .recoveryBudgetExceeded := by
  rw [walk, if_pos hoff, hclock, if_neg Bool.false_ne_true, hparse]
  rfl

/-- Records that stand one after the other all become pending. -/
theorem walk_records (rs : List FramedRecord)
    (pre post : List UInt8) (fuel : Nat) (s : RecoveryState σ)
    (hle : s.records ≤ recoveryRecordLimit opts) :
    GoesOn (s.records + rs.length ≤ recoveryRecordLimit opts)
      (walk segID opts (some apply) (pre ++ (recordsBytes rs ++ post)) (fuel + rs.length)
        pre.length s)
      (walk segID opts (some apply) (pre ++ (recordsBytes rs ++ post)) fuel
        (pre.length + (recordsBytes rs).length) (s.pushRecords segID pre.length rs)) := by
  induction rs generalizing pre s with
  | nil => exact .inl ⟨hle, by simp [RecoveryState.pushRecords, recordsBytes, recordsDescriptors]⟩
  | cons r rs ih =>
    have hge := r.length_bytes_ge
    have hfile : pre ++ (recordsBytes (r :: rs) ++ post) =
        pre ++ (r.bytes ++ (recordsBytes rs ++ post)) := by
      simp [recordsBytes]
    have hoff : pre.length < (pre ++ (r.bytes ++ (recordsBytes rs ++ post))).length := by
      simp
      omega
    have hnext : pre.length + r.bytes.length = (pre ++ r.bytes).length := by simp
    have hlen : pre.length + (recordsBytes (r :: rs)).length =
        (pre ++ r.bytes).length + (recordsBytes rs).length := by
      simp [recordsBytes]
      omega
    have hcount : s.records + (rs.length + 1) = s.records + 1 + rs.length := by omega
    rw [length_cons, ← add_assoc fuel, hcount, hlen, ← RecoveryState.pushRecords_cons, hfile]
    by_cases hlimit : s.records = recoveryRecordLimit opts
    · exact .inr ⟨by omega, walk_spent _ hclock hoff
        ((parseEntry_record pre _ r s).trans (if_pos hlimit))⟩
    rw [walk_ok _ hclock hoff ((parseEntry_record pre _ r s).trans (if_neg hlimit)), ← append_assoc]
    simp only [Bool.or_self, Bool.false_eq_true, if_false, hnext]
    exact ih (pre ++ r.bytes) (s.pushRecords segID pre.length [r]) (show s.records + 1 ≤ _ by omega)

/-- A whole batch is replayed. -/
theorem walk_batch (b : Batch) (pre post : List UInt8)
    (fuel : Nat) (s : RecoveryState σ) (hpending : s.pending = [])
    (hpendingBytes : s.pendingBytes = 0) (hseq : s.lastCommittedSeq < b.seq)
    (hsafe : opts.safeSeq < b.seq) (hle : s.Affords opts 0 0)
    (happly : replay apply (recordsDescriptors segID pre.length b.records) s.sink = .ok sink) :
    GoesOn (s.Affords opts b.records.length (b.bytes segID opts.streamID pre.length).length)
      (walk segID opts (some apply) (pre ++ (b.bytes segID opts.streamID pre.length ++ post))
        (fuel + 1 + b.records.length) pre.length s)
      (walk segID opts (some apply) (pre ++ (b.bytes segID opts.streamID pre.length ++ post)) fuel
        (pre.length + (b.bytes segID opts.streamID pre.length).length)
        (s.afterEntry segID opts.streamID pre.length (.batch b) sink)) := by
  set c := b.commit segID opts.streamID pre.length with hc
  have hfile : pre ++ (b.bytes segID opts.streamID pre.length ++ post) =
      pre ++ (recordsBytes b.records ++ (c.encode ++ post)) := by
    simp [Batch.bytes, hc]
  have hfile' : pre ++ (recordsBytes b.records ++ (c.encode ++ post)) =
      (pre ++ recordsBytes b.records) ++ (c.encode ++ post) := by
    simp
  have hoff : pre.length + (recordsBytes b.records).length =
      (pre ++ recordsBytes b.records).length := by simp
  set s' := s.pushRecords segID pre.length b.records with hs'
  have hpend : s'.pending = recordsDescriptors segID pre.length b.records := by
    simp [hs', RecoveryState.pushRecords, hpending]
  have hhead : (recordsDescriptors segID pre.length b.records).head?.map
      (fun d => .ofNat d.offset) = some (UInt64.ofNat pre.length) := by
    obtain ⟨r, rs, hrs⟩ := exists_cons_of_ne_nil b.nonempty
    simp [hrs, recordsDescriptors, FramedRecord.descriptor]
  have hparse := parseEntry_commit segID opts apply (pre ++ recordsBytes b.records) post c s'
    rfl rfl rfl hseq (by rw [hpend, length_recordsDescriptors]; rfl) (by rw [hpend]; exact hhead)
    (by rw [← hoff]; rfl) hclock hsafe (by rw [hpend]; rfl) (by rw [hpend]; exact happly)
  have hend : (pre ++ recordsBytes b.records).length + batchCommitSize =
      pre.length + (b.bytes segID opts.streamID pre.length).length := by
    rw [Batch.length_bytes, ← hoff, add_assoc]
  have hstate : { s'.commitPending c.seq sink with
        lastValid := pre.length + (b.bytes segID opts.streamID pre.length).length } =
      s.afterEntry segID opts.streamID pre.length (.batch b) sink := by
    simp only [RecoveryState.commitPending, RecoveryState.afterEntry, hs',
      RecoveryState.pushRecords, LogEntry.bytes, LogEntry.seq?, LogEntry.descriptors, logSafeSeq,
      Batch.length_bytes, length_recordsDescriptors, hpending, hpendingBytes, nil_append,
      Option.getD_some, Option.toList_some, length_singleton, RecoveryState.mk.injEq, true_and]
    exact ⟨rfl, by omega, by omega⟩
  have hin : (pre ++ recordsBytes b.records).length <
      (pre ++ recordsBytes b.records ++ (c.encode ++ post)).length := by simp [batchCommitSize]
  have hsum : s'.replayBytes + (s'.pendingBytes + batchCommitSize) =
      s.replayBytes + (b.bytes segID opts.streamID pre.length).length := by
    simp [hs', RecoveryState.pushRecords, hpendingBytes, Batch.length_bytes]
  rw [hsum] at hparse
  rw [hfile]
  refine (walk_records hclock b.records pre _ (fuel + 1) s hle.1).trans (fun _ => ?_) Iff.rfl
  rw [hfile', hoff]
  by_cases hbytes : s.replayBytes + (b.bytes segID opts.streamID pre.length).length ≤
      (recoveryByteLimits opts).1
  · refine .inl ⟨hbytes, ?_⟩
    rw [walk_ok _ hclock hin (hparse.trans (if_pos hbytes))]
    simp only [Bool.or_false, if_true, hend, hstate]
  · exact .inr ⟨hbytes, walk_spent _ hclock hin (hparse.trans (if_neg hbytes))⟩

/-- A marker between batches is stepped over. -/
theorem walk_marker (m : CommitRecord)
    (hop : m.op = .indexSafe) (hunamb : (LogEntry.marker m hop).Unambiguous)
    (pre post : List UInt8) (fuel : Nat) (s : RecoveryState σ) (hpending : s.pending = [])
    (hle : s.Affords opts 0 0) : GoesOn (s.Affords opts 0 m.encode.length)
      (walk segID opts (some apply) (pre ++ (m.encode ++ post)) (fuel + 1) pre.length s)
      (walk segID opts (some apply) (pre ++ (m.encode ++ post)) fuel (pre.length + m.encode.length)
        (s.afterEntry segID opts.streamID pre.length (.marker m hop) s.sink)) := by
  have hoff : pre.length < (pre ++ (m.encode ++ post)).length := by simp [commitRecordSize]
  have hparse := parseEntry_marker segID opts apply pre post m hop hunamb
    { s with clockReads := s.clockReads + 1 } hpending
  by_cases hbytes : s.replayBytes + m.encode.length ≤ (recoveryByteLimits opts).1
  · refine .inl ⟨⟨hle.1, hbytes⟩, ?_⟩
    rw [m.length_encode] at hbytes
    rw [walk_ok _ hclock hoff (hparse.trans (if_pos hbytes))]
    simp only [Bool.false_or, if_true, m.length_encode, RecoveryState.afterEntry, LogEntry.bytes,
      LogEntry.seq?, LogEntry.descriptors, logSafeSeq, Option.getD_none, Option.toList_none,
      length_nil, add_zero, mul_zero]
  · refine .inr ⟨fun h => hbytes h.2, ?_⟩
    rw [m.length_encode] at hbytes
    exact walk_spent _ hclock hoff (hparse.trans (if_neg hbytes))

/-- One entry, of either kind. -/
theorem walk_entry (e : LogEntry) (pre post : List UInt8)
    (fuel : Nat) (s : RecoveryState σ) (hpending : s.pending = [])
    (hpendingBytes : s.pendingBytes = 0)
    (hseq : ∀ q, e.seq? = some q → s.lastCommittedSeq < q ∧ opts.safeSeq < q)
    (hunamb : e.Unambiguous) (hle : s.Affords opts 0 0)
    (happly : replay apply (e.descriptors segID pre.length) s.sink = .ok sink) :
    GoesOn (s.Affords opts (e.descriptors segID pre.length).length
        (e.bytes segID opts.streamID pre.length).length)
      (walk segID opts (some apply) (pre ++ (e.bytes segID opts.streamID pre.length ++ post))
        (fuel + ((e.descriptors segID pre.length).length + 1)) pre.length s)
      (walk segID opts (some apply) (pre ++ (e.bytes segID opts.streamID pre.length ++ post)) fuel
        (pre.length + (e.bytes segID opts.streamID pre.length).length)
        (s.afterEntry segID opts.streamID pre.length e sink)) := by
  cases e with
  | batch b =>
    obtain ⟨hlast, hsafe⟩ := hseq b.seq rfl
    have hfuel : fuel + (b.records.length + 1) = fuel + 1 + b.records.length := by omega
    rw [LogEntry.descriptors, length_recordsDescriptors, hfuel]
    exact walk_batch hclock b pre post fuel s hpending hpendingBytes hlast hsafe hle happly
  | marker m hop =>
    obtain rfl : s.sink = sink := by simpa [LogEntry.descriptors, replay] using happly
    exact walk_marker hclock m hop hunamb pre post fuel s hpending hle

/-- **The walk replays a whole log** and stands behind it with the boundary moved there. -/
theorem walk_log (es : List LogEntry)
    (pre post : List UInt8) (fuel : Nat) (s : RecoveryState σ) (hpending : s.pending = [])
    (hpendingBytes : s.pendingBytes = 0) (hvalid : s.lastValid = pre.length)
    (hseqs : (s.lastCommittedSeq :: logSeqs es).Pairwise (· < ·))
    (hsafe : ∀ q ∈ logSeqs es, opts.safeSeq < q) (hunamb : ∀ e ∈ es, e.Unambiguous)
    (hle : s.Affords opts 0 0)
    (happly : replay apply (logDescriptors segID opts.streamID pre.length es) s.sink = .ok sink) :
    GoesOn (s.Affords opts (logDescriptors segID opts.streamID pre.length es).length
        (logBytes segID opts.streamID pre.length es).length)
      (walk segID opts (some apply) (pre ++ (logBytes segID opts.streamID pre.length es ++ post))
        (fuel + ((logDescriptors segID opts.streamID pre.length es).length + es.length))
        pre.length s)
      (walk segID opts (some apply) (pre ++ (logBytes segID opts.streamID pre.length es ++ post))
        fuel (pre.length + (logBytes segID opts.streamID pre.length es).length)
        (s.afterLog segID opts.streamID pre.length es sink)) := by
  induction es generalizing pre s with
  | nil =>
    obtain rfl : s.sink = sink := by simpa [logDescriptors, replay] using happly
    exact .inl ⟨hle, by
      simp [logBytes, logDescriptors, RecoveryState.afterLog, logSeqs, logSafeSeq, ← hvalid]⟩
  | cons e es ih =>
    obtain ⟨mid, hmid, hrest⟩ := replay_append happly
    set len := (e.bytes segID opts.streamID pre.length).length with hlen
    have hpre : pre.length + len = (pre ++ e.bytes segID opts.streamID pre.length).length := by
      simp [hlen]
    have hfile : pre ++ (logBytes segID opts.streamID pre.length (e :: es) ++ post) =
        pre ++ (e.bytes segID opts.streamID pre.length ++
          (logBytes segID opts.streamID (pre.length + len) es ++ post)) := by
      simp [logBytes, hlen]
    have hseq : ∀ q, e.seq? = some q → s.lastCommittedSeq < q ∧ opts.safeSeq < q := by
      intro q hq
      have hmem : q ∈ logSeqs (e :: es) := by simp [logSeqs, hq]
      exact ⟨rel_of_pairwise_cons hseqs hmem, hsafe q hmem⟩
    have hseqs' : ((s.afterEntry segID opts.streamID pre.length e mid).lastCommittedSeq ::
        logSeqs es).Pairwise (· < ·) := by
      cases e with
      | batch b => exact (pairwise_cons.mp hseqs).2
      | marker m hop => exact hseqs
    have hstep := walk_entry hclock e pre
      (logBytes segID opts.streamID (pre.length + len) es ++ post)
      (fuel + ((logDescriptors segID opts.streamID (pre.length + len) es).length + es.length)) s
      hpending hpendingBytes hseq (hunamb e (.head _)) hle hmid
    have htail := fun hle' => ih (pre ++ e.bytes segID opts.streamID pre.length)
      (s.afterEntry segID opts.streamID pre.length e mid) hpending hpendingBytes hpre hseqs'
      (fun q hq => hsafe q (by
        cases e with
        | batch b => exact .tail _ hq
        | marker m hop => exact hq))
      (fun e' he' => hunamb e' (.tail _ he')) hle' (by rw [← hpre]; exact hrest)
    rw [← hpre, append_assoc] at htail
    have hfuel : fuel + ((logDescriptors segID opts.streamID pre.length (e :: es)).length +
          (e :: es).length) =
        fuel + ((logDescriptors segID opts.streamID (pre.length + len) es).length + es.length) +
          ((e.descriptors segID pre.length).length + 1) := by
      simp only [logDescriptors, length_append, length_cons, ← hlen]
      omega
    have hend : pre.length + (logBytes segID opts.streamID pre.length (e :: es)).length =
        pre.length + len + (logBytes segID opts.streamID (pre.length + len) es).length := by
      simp only [logBytes, length_append, ← hlen, add_assoc]
    rw [hfile, hfuel, hend, ← RecoveryState.afterLog_cons _ _ e es mid, ← hlen]
    refine hstep.trans htail ?_
    simp only [RecoveryState.Affords, RecoveryState.afterEntry, logDescriptors, logBytes,
      length_append, ← hlen]
    omega

/-! ### The torn tail -/

/-- Bytes at which the parser refuses in any state end the walk. -/
theorem walk_refused {tail : List UInt8} (hrefuse : ∀ s : RecoveryState σ, ∃ e : Err,
      parseEntry segID opts (some apply) (pre ++ tail) pre.length s = (.error e, s) ∧ e.Stops)
    (fuel : Nat) (s : RecoveryState σ) :
    ∃ s', walk segID opts (some apply) (pre ++ tail) fuel pre.length s = (.stop, s') ∧
      s.SameReport s' := by
  cases fuel with
  | zero => exact ⟨s, rfl, rfl, fun _ _ _ => rfl⟩
  | succ fuel =>
    by_cases hoff : pre.length < (pre ++ tail).length
    · obtain ⟨e, hparse, he⟩ := hrefuse { s with clockReads := s.clockReads + 1 }
      exact ⟨_, walk_refuse fuel he.endsWalk (by simp [hclock]) hparse hoff, rfl,
        fun _ _ _ => rfl⟩
    · exact ⟨s, walk_end _ _ s (Nat.le_of_not_lt hoff), rfl, fun _ _ _ => rfl⟩

/-- **Behind the last boundary, any strict first part of a batch ends the walk** and changes
nothing that recovery reports, or its records exceed the limit. -/
theorem walk_torn (c : BatchCommit)
    (hm : c.magic = batchCommitMagic) (rs : List FramedRecord) (pre : List UInt8)
    (hk : k < (recordsBytes rs ++ c.encode).length) (fuel : Nat) (s : RecoveryState σ)
    (hle : s.records ≤ recoveryRecordLimit opts) :
    StopsWalk opts s (wholeRecords rs k) (walk segID opts (some apply)
      (pre ++ (recordsBytes rs ++ c.encode).take k) fuel pre.length s) := by
  induction rs generalizing pre k fuel s with
  | nil =>
    have hk' : k < batchCommitSize := by simpa [recordsBytes] using hk
    exact .inl (walk_refused pre hclock
      (fun s => ⟨_, parseEntry_torn_commit pre c hm hk' s, .inl rfl⟩) fuel s)
  | cons r rs ih =>
    have hfile : recordsBytes (r :: rs) ++ c.encode = r.bytes ++ (recordsBytes rs ++ c.encode) := by
      simp [recordsBytes]
    rw [hfile] at hk ⊢
    cases fuel with
    | zero => exact .inl ⟨s, rfl, rfl, fun _ _ _ => rfl⟩
    | succ fuel =>
      by_cases hr : r.bytes.length ≤ k
      · -- The record is whole: it becomes pending, and the cut lies further on.
        have htake : (r.bytes ++ (recordsBytes rs ++ c.encode)).take k =
            r.bytes ++ (recordsBytes rs ++ c.encode).take (k - r.bytes.length) := by
          rw [take_append, take_of_length_le hr]
        have hge := r.length_bytes_ge
        have hoff : pre.length < (pre ++ (r.bytes ++
            (recordsBytes rs ++ c.encode).take (k - r.bytes.length))).length := by
          simp
          omega
        rw [length_append] at hk
        rw [htake, wholeRecords, if_pos hr]
        by_cases hlimit : s.records = recoveryRecordLimit opts
        · exact .inr ⟨by omega, walk_spent _ hclock hoff
            ((parseEntry_record pre _ r s).trans (if_pos hlimit))⟩
        have hrest := ih (k := k - r.bytes.length) (pre ++ r.bytes) (by omega) fuel
          (s.pushRecords segID pre.length [r]) (show s.records + 1 ≤ _ by omega)
        rw [walk_ok _ hclock hoff ((parseEntry_record pre _ r s).trans (if_neg hlimit))]
        rw [append_assoc, length_append] at hrest
        rcases hrest with hstop | ⟨hmore, hspent⟩
        · exact .inl hstop
        · refine .inr ⟨?_, hspent⟩
          rw [add_comm _ 1, ← add_assoc]
          exact hmore
      · have htake : (r.bytes ++ (recordsBytes rs ++ c.encode)).take k = r.bytes.take k := by
          rw [take_append_of_le_length (by omega)]
        rw [htake]
        exact .inl (walk_refused pre hclock
          (fun s => ⟨_, parseEntry_torn_record pre r (by omega) s, .inl rfl⟩) _ s)

end Entries

end Nufs.Storage
