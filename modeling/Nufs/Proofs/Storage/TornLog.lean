/-
Exact recovery of a torn log.

A segment file that is a header, a log and a first part of one more batch is
recovered exactly: the sink has taken the records of the log in file order, the
last batch's sequence is reported, and the file is cut behind the log.  Recovering
the result again changes nothing.

One thing has to be asked of the log.  A marker starts with its sequence number,
and recovery looks for two magic numbers first; a marker whose sequence begins with
one of them is not found.  The last section shows such a log.
-/
import Nufs.Proofs.Storage.Recover

namespace Nufs.Storage

open Layout ByteFile List

section TornLog

variable {σ : Type} {segID : SegmentID} {opts : RecoverOptions}
  {apply : CommitDescriptor → σ → Except Err σ}

/-- Behind the bytes `pre`, the bytes `tail` end the walk and change nothing it reports;
`w` more records may be seen on the way, as far as they fit in. -/
def Stops (segID : SegmentID) (opts : RecoverOptions)
    (apply : CommitDescriptor → σ → Except Err σ) (pre tail : List UInt8) (w : Nat) : Prop :=
  67 * w ≤ tail.length ∧ ∀ (fuel : Nat) (s : RecoveryState σ),
    s.records ≤ recoveryRecordLimit opts →
    StopsWalk opts s w (walk segID opts (some apply) (pre ++ tail) fuel pre.length s)

theorem stops_nil (pre : List UInt8) : Stops segID opts apply pre [] 0 :=
  ⟨Nat.zero_le _, fun fuel s _ => .inl ⟨s, walk_end _ fuel s (by simp), rfl, fun _ _ _ => rfl⟩⟩

theorem wholeRecords_bytes (rs : List FramedRecord) (k : Nat) : 67 * wholeRecords rs k ≤ k := by
  induction rs generalizing k with
  | nil => exact Nat.zero_le _
  | cons r rs ih =>
    have hge := r.length_bytes_ge
    have hrest := ih (k - r.bytes.length)
    unfold wholeRecords
    split_ifs <;> omega

theorem stops_torn_batch (hclock : ∀ n, opts.expired n = false) (streamID : UInt8) (b : Batch)
    (pre : List UInt8) {off k : Nat} (hk : k < (b.bytes segID streamID off).length) :
    Stops segID opts apply pre ((b.bytes segID streamID off).take k)
      (wholeRecords b.records k) := by
  refine ⟨?_, fun fuel s hle =>
    walk_torn hclock (b.commit segID streamID off) rfl b.records pre hk fuel s hle⟩
  rw [length_take_of_le (le_of_lt hk)]
  exact wholeRecords_bytes b.records k

/-- The limits of recovery allow this many records, replayed bytes and trailing bytes. -/
def Within (opts : RecoverOptions) (records replayed trailing : Nat) : Prop :=
  records ≤ recoveryRecordLimit opts ∧ replayed ≤ (recoveryByteLimits opts).1 ∧
    trailing ≤ (recoveryByteLimits opts).2

/-- What recovery reports of a log that starts at `start`, with `torn` bytes behind it. -/
def logReport (segID : SegmentID) (streamID : UInt8) (start : Nat) (seq safeSeq : UInt64)
    (es : List LogEntry) (torn : Nat) : RecoverResult where
  commits := (logSeqs es).length
  applied := (logDescriptors segID streamID start es).length
  lastSeq := (logSeqs es).getLastD seq
  safeOffset := start
  lastCommittedOffset := start + (logBytes segID streamID start es).length
  trailingBytes := torn
  safeSeq := logSafeSeq safeSeq es
  replayBytes := (logBytes segID streamID start es).length
  dataReady := true

theorem length_recordsBytes_ge (rs : List FramedRecord) :
    67 * rs.length ≤ (recordsBytes rs).length := by
  induction rs with
  | nil => simp
  | cons r rs ih =>
    have hge := r.length_bytes_ge
    simp only [recordsBytes, flatMap_cons, length_append, length_cons] at ih ⊢
    omega

/-- Every entry takes at least as many bytes as the walk takes steps over it. -/
theorem logSteps_le (segID : SegmentID) (streamID : UInt8) (off : Nat) (es : List LogEntry) :
    67 * (logDescriptors segID streamID off es).length + es.length ≤
      (logBytes segID streamID off es).length := by
  induction es generalizing off with
  | nil => simp [logDescriptors, logBytes]
  | cons e es ih =>
    have hentry : 67 * (e.descriptors segID off).length + 1 ≤
        (e.bytes segID streamID off).length := by
      cases e with
      | batch b =>
        have hge := length_recordsBytes_ge b.records
        simp only [LogEntry.descriptors, LogEntry.bytes, length_recordsDescriptors,
          Batch.length_bytes, batchCommitSize]
        omega
      | marker m hop => simp [LogEntry.descriptors, LogEntry.bytes, commitRecordSize]
    have hrest := ih (off + (e.bytes segID streamID off).length)
    simp only [logDescriptors, logBytes, length_append, length_cons]
    omega

variable {w : Nat} {sink sink' : σ}

theorem recover_spent {f : List UInt8} {start : Nat} {seq : UInt64}
    (hstart : recoverStart opts f = .ok (start, seq))
    (hended : (walk segID opts (some apply) f f.length start
      (.init sink start seq opts.safeSeq)).1 = .fail true .recoveryBudgetExceeded) :
    (recoverFromSegmentLog segID opts (some apply) sink f).err = some .recoveryBudgetExceeded := by
  unfold recoverFromSegmentLog
  rw [hstart]
  dsimp only
  generalize walk segID opts (some apply) f f.length start _ = r at hended
  obtain ⟨ended, s⟩ := r
  obtain rfl : ended = _ := hended
  rfl

/-- **Recovery of a log from any boundary**, with any tail that ends the walk behind it: it
replays the log, or finds its limits exceeded. -/
theorem recover_log (hclock : ∀ n, opts.expired n = false) (es : List LogEntry)
    (pre tail : List UInt8) {start : Nat} {seq : UInt64} (hpre : pre.length = start)
    (hstart : recoverStart opts (pre ++ (logBytes segID opts.streamID start es ++ tail)) =
      .ok (start, seq)) (hseqs : (seq :: logSeqs es).Pairwise (· < ·))
    (hsafe : ∀ q ∈ logSeqs es, opts.safeSeq < q) (hunamb : ∀ e ∈ es, e.Unambiguous)
    (htail : Stops segID opts apply (pre ++ logBytes segID opts.streamID start es) tail w)
    (happly : replay apply (logDescriptors segID opts.streamID start es) sink = .ok sink') :
    recoverFromSegmentLog segID opts (some apply) sink
        (pre ++ (logBytes segID opts.streamID start es ++ tail)) =
      { result := some (logReport segID opts.streamID start seq opts.safeSeq es tail.length)
        err := none
        file := pre ++ logBytes segID opts.streamID start es
        sink := sink' } ∨
      ¬ Within opts ((logDescriptors segID opts.streamID start es).length + w)
          (logBytes segID opts.streamID start es).length tail.length ∧
        (recoverFromSegmentLog segID opts (some apply) sink
          (pre ++ (logBytes segID opts.streamID start es ++ tail))).err =
            some .recoveryBudgetExceeded := by
  subst hpre
  set log := logBytes segID opts.streamID pre.length es with hlog
  set s0 : RecoveryState σ := .init sink pre.length seq opts.safeSeq with hs0
  have hsteps : _ ≤ log.length := logSteps_le segID opts.streamID pre.length es
  have hlen : (pre ++ (log ++ tail)).length = pre.length + log.length + tail.length := by
    simp only [length_append, Nat.add_assoc]
  obtain ⟨fuel, hfuel⟩ : ∃ fuel, (pre ++ (log ++ tail)).length =
      fuel + ((logDescriptors segID opts.streamID pre.length es).length + es.length) :=
    ⟨_, (Nat.sub_add_cancel (by omega)).symm⟩
  have hwalk := walk_log hclock es pre tail fuel s0 rfl rfl rfl hseqs hsafe hunamb
    ⟨Nat.zero_le _, Nat.zero_le _⟩ happly
  rw [← hlog, ← hfuel] at hwalk
  rcases hwalk with ⟨⟨hrecords, -⟩, hwalk⟩ | ⟨hover, hended⟩
  · rcases htail.2 fuel (s0.afterLog segID opts.streamID pre.length es sink') hrecords with
      ⟨s', hstop, hsame⟩ | ⟨hmore, hended⟩
    · have hvalid : pre.length + log.length = s'.lastValid :=
        hsame.lastValid_eq
      rw [append_assoc, length_append] at hstop
      have htrail : (pre ++ (log ++ tail)).length - s'.lastValid = tail.length := by omega
      have hcut : (if 0 < tail.length then (pre ++ (log ++ tail)).take s'.lastValid
          else pre ++ (log ++ tail)) = pre ++ log := by
        split_ifs with hpos
        · rw [← hvalid, ← append_assoc, ← length_append, take_left]
        · simp [eq_nil_of_length_eq_zero (Nat.eq_zero_of_not_pos hpos)]
      have hreport : s'.result (pre ++ (log ++ tail)).length pre.length true =
          logReport segID opts.streamID pre.length seq opts.safeSeq es tail.length := by
        rw [← hsame.2]
        simp only [RecoveryState.result, RecoveryState.afterLog, logReport, hs0, RecoveryState.init,
          ← hlog, hlen, Nat.zero_add, RecoverResult.mk.injEq, true_and, and_true]
        omega
      have hsink' : s'.sink = sink' := hsame.1.symm
      simp only [recoverFromSegmentLog, hstart, ← hs0, hwalk, hstop, htrail, hcut, hclock, hreport,
        hsink']
      by_cases htrailing : (recoveryByteLimits opts).2 < tail.length
      · rw [if_pos htrailing]
        exact .inr ⟨fun h => absurd h.2.2 (Nat.not_le.mpr htrailing), rfl⟩
      · rw [if_neg htrailing]
        exact .inl rfl
    · rw [append_assoc, length_append, ← hwalk] at hended
      refine .inr ⟨fun h => absurd h.1 (Nat.not_le.mpr ?_), recover_spent hstart hended⟩
      simpa [hs0, RecoveryState.init, RecoveryState.afterLog] using hmore
  · refine .inr ⟨fun h => hover ⟨?_, ?_⟩, recover_spent hstart hended⟩
    · rw [hs0, RecoveryState.init, Nat.zero_add]
      exact (Nat.le_add_right _ _).trans h.1
    · rw [hs0, RecoveryState.init, Nat.zero_add]
      exact h.2.1

theorem recoverStart_header (hdr : SegmentHeader) (hmagic : hdr.magic = segmentMagic)
    (hversion : hdr.version = formatVersion) (rest : List UInt8)
    (hnonneg : 0 ≤ opts.safeOffset) (hle : opts.safeOffset ≤ segmentHeaderSize) :
    recoverStart opts (hdr.encode ++ rest) = .ok (segmentHeaderSize, 0) := by
  have hlen : hdr.encode.length = segmentHeaderSize := hdr.length_encode
  have hlong : ¬ (hdr.encode ++ rest).length < segmentHeaderSize := by simp
  have htake : (hdr.encode ++ rest).take segmentHeaderSize = hdr.encode := by
    rw [← hlen, take_left]
  have hmax : max opts.safeOffset.toNat segmentHeaderSize = segmentHeaderSize :=
    max_eq_right (by omega)
  simp only [recoverStart, if_neg hlong, htake, hdr.decode_encode hmagic hversion, bind,
    Except.bind, Int.not_lt.mpr hnonneg, if_false, hmax, if_true]

theorem logSeqs_pos {es : List LogEntry} {q : UInt64} (hq : q ∈ logSeqs es) : 0 < q := by
  obtain ⟨e, -, he⟩ := mem_filterMap.mp hq
  cases e with
  | batch b =>
    obtain rfl : b.seq = q := by simpa [LogEntry.seq?] using he
    exact b.seq_pos
  | marker m hop => simp [LogEntry.seq?] at he

/-- Recovery of a whole segment, from its header on. -/
theorem recover_from_header (hclock : ∀ n, opts.expired n = false) (hdr : SegmentHeader)
    (hmagic : hdr.magic = segmentMagic) (hversion : hdr.version = formatVersion)
    (hoffset : 0 ≤ opts.safeOffset ∧ opts.safeOffset ≤ segmentHeaderSize)
    (hsafeSeq : opts.safeSeq = 0) (es : List LogEntry) (tail : List UInt8)
    (hseqs : (logSeqs es).Pairwise (· < ·)) (hunamb : ∀ e ∈ es, e.Unambiguous)
    (htail : Stops segID opts apply
      (hdr.encode ++ logBytes segID opts.streamID segmentHeaderSize es) tail w)
    (hwithin : Within opts ((logDescriptors segID opts.streamID segmentHeaderSize es).length + w)
      (logBytes segID opts.streamID segmentHeaderSize es).length tail.length)
    (happly : replay apply (logDescriptors segID opts.streamID segmentHeaderSize es) sink =
      .ok sink') :
    recoverFromSegmentLog segID opts (some apply) sink
        (hdr.encode ++ (logBytes segID opts.streamID segmentHeaderSize es ++ tail)) =
      { result := some (logReport segID opts.streamID segmentHeaderSize 0 0 es tail.length)
        err := none
        file := hdr.encode ++ logBytes segID opts.streamID segmentHeaderSize es
        sink := sink' } := by
  have hseqs' : ((0 : UInt64) :: logSeqs es).Pairwise (· < ·) :=
    pairwise_cons.mpr ⟨fun q hq => logSeqs_pos hq, hseqs⟩
  have hsafe : ∀ q ∈ logSeqs es, opts.safeSeq < q := by
    intro q hq
    rw [hsafeSeq]
    exact logSeqs_pos hq
  have h := (recover_log hclock es hdr.encode tail hdr.length_encode
    (recoverStart_header hdr hmagic hversion _ hoffset.1 hoffset.2) hseqs' hsafe hunamb htail
    happly).resolve_right fun h => h.1 hwithin
  rwa [hsafeSeq] at h

/--
**Exact recovery of a torn log.**  A valid header, a log with strictly increasing
commit sequences and unambiguous markers, and the first `k` bytes of one more
batch, with no limit exceeded: whatever `apply` does with the descriptors of the
log in file order is what the sink shows, the report names the last whole batch,
and the file is cut behind the log.  Recovery of the result does the same again
and cuts nothing.
-/
theorem recover_torn_log (segID : SegmentID) (opts : RecoverOptions)
    (apply : CommitDescriptor → σ → Except Err σ) (sink sink' : σ) (hdr : SegmentHeader)
    (es : List LogEntry) (b : Batch) (k : Nat)
    (hmagic : hdr.magic = segmentMagic) (hversion : hdr.version = formatVersion)
    (hseqs : (logSeqs es).Pairwise (· < ·)) (hunamb : ∀ e ∈ es, e.Unambiguous)
    (hk : k < (b.bytes segID opts.streamID (segmentHeaderSize +
      (logBytes segID opts.streamID segmentHeaderSize es).length)).length)
    (hoffset : 0 ≤ opts.safeOffset ∧ opts.safeOffset ≤ segmentHeaderSize)
    (hsafeSeq : opts.safeSeq = 0) (hclock : ∀ n, opts.expired n = false)
    (hrecords : (logDescriptors segID opts.streamID segmentHeaderSize es).length +
      wholeRecords b.records k ≤ recoveryRecordLimit opts)
    (hreplay : (logBytes segID opts.streamID segmentHeaderSize es).length ≤
      (recoveryByteLimits opts).1)
    (htrailing : k ≤ (recoveryByteLimits opts).2)
    (happly : replay apply (logDescriptors segID opts.streamID segmentHeaderSize es) sink =
      .ok sink') :
    let log := logBytes segID opts.streamID segmentHeaderSize es
    let torn := (b.bytes segID opts.streamID (segmentHeaderSize + log.length)).take k
    let report := logReport segID opts.streamID segmentHeaderSize 0 0 es
    recoverFromSegmentLog segID opts (some apply) sink (hdr.encode ++ (log ++ torn)) =
        ⟨some (report k), none, hdr.encode ++ log, sink'⟩ ∧
      recoverFromSegmentLog segID opts (some apply) sink (hdr.encode ++ log) =
        ⟨some (report 0), none, hdr.encode ++ log, sink'⟩ := by
  intro log torn report
  have htornLen : torn.length = k := length_take_of_le (le_of_lt hk)
  refine ⟨?_, ?_⟩
  · have h := recover_from_header hclock hdr hmagic hversion hoffset hsafeSeq es torn hseqs hunamb
      (stops_torn_batch hclock opts.streamID b _ hk) ⟨hrecords, hreplay, htornLen.symm ▸ htrailing⟩
      happly
    rwa [htornLen] at h
  · have h := recover_from_header hclock hdr hmagic hversion hoffset hsafeSeq es [] hseqs hunamb
      (stops_nil _) ⟨by omega, hreplay, Nat.zero_le _⟩ happly
    rwa [append_nil] at h

end TornLog

/-! ### A log that is recovered, and a marker that is not found -/

namespace SampleLog

/-- Options that start at the header and never run into a limit. -/
def opts : RecoverOptions where
  streamID := 1
  safeOffset := 0
  safeSeq := 0
  requireSafeMarker := false
  maxRecords := 0
  maxReplayBytes := 0
  maxTrailingBytes := 0
  expired := fun _ => false

def hdr : SegmentHeader where
  magic := segmentMagic
  version := formatVersion
  id := 1
  segmentClass := .data
  reserved := 0

/-- A batch of one delete record. -/
def batch (seq : UInt64) (h : 0 < seq) : Batch where
  seq
  records := [.delete 7 1]
  seq_pos := h
  nonempty := by simp

/-- A batch and the marker of its sequence. -/
def log (seq : UInt64) (h : 0 < seq) : List LogEntry :=
  [.batch (batch seq h), .safeAt seq]

/-- A sequence whose high word is the BatchCommit magic. -/
def ambiguousSeq : UInt64 := 0x42434F4D00000001

end SampleLog

open SampleLog in
/-- A batch and its marker are recovered from in front of the first ten bytes of a second batch. -/
theorem recover_torn_log_ten_bytes : (recoverFromSegmentLog 1 opts (some collect) []
      (hdr.encode ++ (logBytes 1 1 segmentHeaderSize (log 1 (by decide)) ++
        ((batch 2 (by decide)).bytes 1 1 (segmentHeaderSize +
          (logBytes 1 1 segmentHeaderSize (log 1 (by decide))).length)).take 10))).sink =
      logDescriptors 1 1 segmentHeaderSize (log 1 (by decide)) :=
  congrArg RecoverOutcome.sink
    (recover_torn_log 1 opts collect [] (logDescriptors 1 1 segmentHeaderSize (log 1 (by decide)))
      hdr (log 1 (by decide)) (batch 2 (by decide)) 10 rfl rfl (by decide)
      (by
        intro e he
        simp only [log, mem_cons, not_mem_nil, or_false] at he
        rcases he with rfl | rfl
        · trivial
        · exact ⟨by decide, by decide⟩)
      (by decide +kernel) (by decide) rfl (fun _ => rfl) (by decide +kernel) (by decide +kernel)
      (by decide) rfl).1

open SampleLog in
/-- The sequence of this marker starts with the bytes of the BatchCommit magic.  Recovery takes
it for a commit, stops before it and cuts it off. -/
theorem recover_cuts_marker : (logSeqs (log ambiguousSeq (by decide))).Pairwise (· < ·) ∧
      (recoverFromSegmentLog 1 opts (some collect) []
        (hdr.encode ++ logBytes 1 1 segmentHeaderSize (log ambiguousSeq (by decide)))).file ≠
        hdr.encode ++ logBytes 1 1 segmentHeaderSize (log ambiguousSeq (by decide)) := by
  refine ⟨by decide, ?_⟩
  decide +kernel

end Nufs.Storage
