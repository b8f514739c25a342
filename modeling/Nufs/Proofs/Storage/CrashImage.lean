/-
What recovery finds in a segment after a crash.

Of what was appended since the last barrier a crash keeps some first part, which
may end anywhere: inside a record, a commit, a marker or the footer.  Recovery then
finds the entries that are whole and nothing else.
-/
import Nufs.Storage.Store
import Nufs.Proofs.Storage.TornLog

namespace Nufs.Storage

open Layout ByteFile List

/-! ### Logs and their parts -/

variable (segID : SegmentID) (streamID : UInt8)

theorem logBytes_append (off : Nat) (es es' : List LogEntry) :
    logBytes segID streamID off (es ++ es') = logBytes segID streamID off es ++
        logBytes segID streamID (off + (logBytes segID streamID off es).length) es' := by
  induction es generalizing off with
  | nil => simp [logBytes]
  | cons e es ih =>
    simp only [cons_append, logBytes, ih, append_assoc, length_append, Nat.add_assoc]

theorem logDescriptors_append (off : Nat) (es es' : List LogEntry) :
    logDescriptors segID streamID off (es ++ es') = logDescriptors segID streamID off es ++
        logDescriptors segID streamID (off + (logBytes segID streamID off es).length) es' := by
  induction es generalizing off with
  | nil => simp [logDescriptors, logBytes]
  | cons e es ih =>
    simp only [cons_append, logDescriptors, logBytes, ih, append_assoc,
      length_append, Nat.add_assoc]

theorem logSeqs_append (es es' : List LogEntry) : logSeqs (es ++ es') = logSeqs es ++ logSeqs es' :=
  filterMap_append

/-- A first part of a log's bytes is a first part of its entries, then a strict first part of
the next one. -/
theorem prefix_logBytes {p : List UInt8} {off : Nat} {es : List LogEntry}
    (h : p <+: logBytes segID streamID off es) :
    ∃ es1 es2 t, es = es1 ++ es2 ∧ p = logBytes segID streamID off es1 ++ t ∧
      (t = [] ∨ ∃ e es3, es2 = e :: es3 ∧
        t <+: e.bytes segID streamID (off + (logBytes segID streamID off es1).length) ∧ t.length <
          (e.bytes segID streamID (off + (logBytes segID streamID off es1).length)).length) := by
  induction es generalizing p off with
  | nil =>
    obtain rfl : p = [] := prefix_nil.mp h
    exact ⟨[], [], [], rfl, rfl, .inl rfl⟩
  | cons e es ih =>
    by_cases hlt : p.length < (e.bytes segID streamID off).length
    · -- The cut lies inside the first entry.
      have hp : p <+: e.bytes segID streamID off :=
        prefix_of_prefix_length_le h (prefix_append _ _) (le_of_lt hlt)
      exact ⟨[], e :: es, p, rfl, by simp [logBytes],
        .inr ⟨e, es, rfl, by simpa [logBytes] using hp,
        by simpa [logBytes] using hlt⟩⟩
    have hle : (e.bytes segID streamID off).length ≤ p.length := Nat.le_of_not_lt hlt
    obtain ⟨q, rfl⟩ : e.bytes segID streamID off <+: p :=
      prefix_of_prefix_length_le (prefix_append _ _) h hle
    have hq : q <+: logBytes segID streamID (off + (e.bytes segID streamID off).length) es :=
      (prefix_append_right_inj _).mp h
    obtain ⟨es1, es2, t, rfl, rfl, hcut⟩ := ih hq
    refine ⟨e :: es1, es2, t, rfl, by simp [logBytes], ?_⟩
    simpa [logBytes, Nat.add_assoc] using hcut

/-- The bytes of a segment: its header and its log. -/
def segmentBytes (streamID : UInt8) (segID : SegmentID) (segmentClass : SegmentClass)
    (es : List LogEntry) : List UInt8 :=
  (newSegmentHeader segID segmentClass).encode ++ logBytes segID streamID segmentHeaderSize es

section Segment

variable (streamID : UInt8) (segID : SegmentID) (segmentClass : SegmentClass)

variable (es : List LogEntry)

theorem length_segmentBytes : (segmentBytes streamID segID segmentClass es).length =
      segmentHeaderSize + (logBytes segID streamID segmentHeaderSize es).length := by
  simp [segmentBytes]

theorem segmentBytes_append (es' : List LogEntry) :
    segmentBytes streamID segID segmentClass (es ++ es') =
      segmentBytes streamID segID segmentClass es ++
        logBytes segID streamID (segmentBytes streamID segID segmentClass es).length es' := by
  rw [length_segmentBytes]
  simp [segmentBytes, logBytes_append]

theorem segmentBytes_concat (e : LogEntry) : segmentBytes streamID segID segmentClass (es ++ [e]) =
      segmentBytes streamID segID segmentClass es ++
        e.bytes segID streamID (segmentBytes streamID segID segmentClass es).length := by
  rw [segmentBytes_append, logBytes, logBytes, append_nil]

theorem segmentBytes_batch (b : Batch) :
    segmentBytes streamID segID segmentClass (es ++ [.batch b]) =
      segmentBytes streamID segID segmentClass es ++
        b.bytes segID streamID (segmentBytes streamID segID segmentClass es).length :=
  segmentBytes_concat _ _ _ _ _

end Segment

/-! ### Tails that end the walk -/

section Tails

variable {σ : Type} {segID : SegmentID} {opts : RecoverOptions}
  {apply : CommitDescriptor → σ → Except Err σ}

variable {off : Nat} {t : List UInt8}

/-- Bytes at which the parser refuses in any state end the walk. -/
theorem stops_refused (hclock : ∀ n, opts.expired n = false) (pre tail : List UInt8)
    (hrefuse : ∀ s : RecoveryState σ, ∃ e : Err,
      parseEntry segID opts (some apply) (pre ++ tail) pre.length s = (.error e, s) ∧ e.Stops) :
    Stops segID opts apply pre tail 0 :=
  ⟨Nat.zero_le _, fun fuel s _ => .inl (walk_refused pre hclock hrefuse fuel s)⟩

/-- Bytes too few for a marker that do not start like a commit or a record. -/
theorem parseEntry_foreign (pre : List UInt8) (hlen : t.length < commitRecordSize)
    (hmagic : 4 ≤ t.length → u32At t 0 ≠ batchCommitMagic ∧ u32At t 0 ≠ recordMagic)
    (s : RecoveryState σ) :
    ∃ e, parseEntry segID opts (some apply) (pre ++ t) pre.length s = (.error e, s) ∧ e.Stops := by
  by_cases h4 : t.length < 4
  · exact ⟨_, parseEntry_headless pre s h4, .inl rfl⟩
  have h4' : 4 ≤ t.length := Nat.le_of_not_lt h4
  obtain ⟨hcommit, hrecord⟩ := hmagic h4'
  have hmarker : indexSafeAt (pre ++ t) pre.length = none := by
    simp only [indexSafeAt, readFullAt_short pre hlen]
  have hentry : parseEntry segID opts (some apply) (pre ++ t) pre.length s =
      parseRecord segID opts (pre ++ t) pre.length s := by
    simp only [parseEntry, readFullAt_end pre h4', u32At_take t (Nat.le_refl 4), if_neg hcommit,
      ne_eq, hrecord, not_false_iff, if_true, hmarker]
  rw [hentry]
  by_cases h5 : t.length < 5
  · refine ⟨_, ?_, .inl rfl⟩
    simp only [parseRecord, checkRecord, checkRecordHeader, readFullAt_short pre h5]
  · refine ⟨_, ?_, .inr ⟨"storage: bad record magic 0x" ++ hex (u32At t 0).toNat, rfl⟩⟩
    simp only [parseRecord, checkRecord, checkRecordHeader,
      readFullAt_end pre (Nat.le_of_not_lt h5), u32At_take t (show 0 + 4 ≤ 5 by omega), ne_eq,
      hrecord, not_false_iff, if_true]

/-- A strict first part of a marker is such. -/
theorem parseEntry_torn_marker (pre : List UInt8) {m : CommitRecord} (hop : m.op = .indexSafe)
    (hunamb : (LogEntry.marker m hop).Unambiguous) (ht : t <+: m.encode)
    (hlt : t.length < m.encode.length) (s : RecoveryState σ) :
    ∃ e, parseEntry segID opts (some apply) (pre ++ t) pre.length s = (.error e, s) ∧ e.Stops := by
  refine parseEntry_foreign pre (m.length_encode ▸ hlt) (fun h4 => ?_) s
  rw [prefix_iff_eq_take.mp ht, u32At_take _ (by omega), m.first_word]
  exact hunamb

/-- A footer is, whole or not. -/
theorem parseEntry_footer (pre : List UInt8) {footer : SegmentFooter}
    (hmagic : footer.magic = segmentMagic) (ht : t <+: footer.encode) (s : RecoveryState σ) :
    ∃ e, parseEntry segID opts (some apply) (pre ++ t) pre.length s = (.error e, s) ∧ e.Stops := by
  have hlen : footer.encode.length = 65 := footer.length_encode
  have hle := ht.length_le
  have hfirst : u32At footer.encode 0 = footer.magic := u32At_layout rfl
  refine parseEntry_foreign pre (by rw [commitRecordSize]; omega) (fun h4 => ?_) s
  rw [prefix_iff_eq_take.mp ht, u32At_take _ (by omega), hfirst, hmagic]
  exact ⟨by decide, by decide⟩

theorem wholeRecords_le (rs : List FramedRecord) (k : Nat) : wholeRecords rs k ≤ rs.length := by
  induction rs generalizing k with
  | nil => simp [wholeRecords]
  | cons r rs ih =>
    unfold wholeRecords
    split_ifs
    · exact Nat.succ_le_succ (ih _)
    · exact Nat.zero_le _

section

variable (hclock : ∀ n, opts.expired n = false)
include hclock

/-- A strict first part of any entry ends the walk. -/
theorem stops_torn_entry (streamID : UInt8) (e : LogEntry)
    (hunamb : e.Unambiguous) (pre : List UInt8) (ht : t <+: e.bytes segID streamID off)
    (hlt : t.length < (e.bytes segID streamID off).length) :
    ∃ w, w ≤ (e.descriptors segID off).length ∧ Stops segID opts apply pre t w := by
  cases e with
  | batch b =>
    refine ⟨wholeRecords b.records t.length, ?_, ?_⟩
    · rw [LogEntry.descriptors, length_recordsDescriptors]
      exact wholeRecords_le _ _
    · have htake : t = (b.bytes segID streamID off).take t.length :=
        prefix_iff_eq_take.mp ht
      have hstops : Stops segID opts apply pre ((b.bytes segID streamID off).take t.length)
          (wholeRecords b.records t.length) := stops_torn_batch hclock streamID b pre hlt
      rwa [← htake] at hstops
  | marker m hop =>
    exact ⟨0, Nat.zero_le _,
      stops_refused hclock pre t (parseEntry_torn_marker pre hop hunamb ht hlt)⟩

theorem stops_tail {tail : List UInt8}
    (htail : tail = [] ∨ ∃ footer : SegmentFooter, footer.magic = segmentMagic ∧
      tail = footer.encode) (pre : List UInt8) (ht : t <+: tail) :
    ∃ w, w ≤ 0 ∧ Stops segID opts apply pre t w := by
  refine ⟨0, le_rfl, ?_⟩
  rcases htail with rfl | ⟨footer, hmagic, rfl⟩
  · obtain rfl : t = [] := prefix_nil.mp ht
    exact stops_nil _
  · exact stops_refused hclock pre t (parseEntry_footer pre hmagic ht)

/-- **What a crash leaves of a segment.**  If the entries `kept` survived and of the entries
`rest` and the tail `t` behind them any first part, the segment holds `kept`, the first few of
`rest` and a tail that ends the walk. -/
theorem cut_segment {streamID : UInt8}
    {segmentClass : SegmentClass} {kept rest : List LogEntry} {img : List UInt8} {W : Nat}
    (hkept : segmentBytes streamID segID segmentClass kept <+: img)
    (himg : img <+: segmentBytes streamID segID segmentClass (kept ++ rest) ++ t)
    (hunamb : ∀ e ∈ rest, e.Unambiguous) (ht : ∀ t', t' <+: t → ∃ w, w ≤ W ∧
      Stops segID opts apply (segmentBytes streamID segID segmentClass (kept ++ rest)) t' w) :
    ∃ rest' tail w, rest' <+: rest ∧
      img = segmentBytes streamID segID segmentClass (kept ++ rest') ++ tail ∧
      Stops segID opts apply (segmentBytes streamID segID segmentClass (kept ++ rest')) tail w ∧
      (logDescriptors segID streamID segmentHeaderSize (kept ++ rest')).length + w ≤
        (logDescriptors segID streamID segmentHeaderSize (kept ++ rest)).length + W := by
  obtain ⟨p, rfl⟩ := hkept
  rw [segmentBytes_append, append_assoc, prefix_append_right_inj] at himg
  set off := (segmentBytes streamID segID segmentClass kept).length
  by_cases hle : p.length ≤ (logBytes segID streamID off rest).length
  · -- The cut lies in the entries behind `kept`.
    obtain ⟨es1, es2, t', rfl, rfl, hcut⟩ := prefix_logBytes segID streamID
      (prefix_of_prefix_length_le himg (prefix_append _ _) hle)
    have hbytes : segmentBytes streamID segID segmentClass kept ++
        (logBytes segID streamID off es1 ++ t') =
        segmentBytes streamID segID segmentClass (kept ++ es1) ++ t' := by
      rw [segmentBytes_append, append_assoc]
    have hlogoff : off + (logBytes segID streamID off es1).length =
        segmentHeaderSize + (logBytes segID streamID segmentHeaderSize (kept ++ es1)).length := by
      rw [← length_segmentBytes streamID segID segmentClass, segmentBytes_append, length_append]
    rcases hcut with rfl | ⟨e, es3, rfl, hpre, hlt⟩
    · refine ⟨es1, [], 0, prefix_append _ _, hbytes, stops_nil _, ?_⟩
      rw [← append_assoc, logDescriptors_append _ _ _ (kept ++ es1), length_append]
      omega
    obtain ⟨w, hw, hstops⟩ := stops_torn_entry hclock streamID e (hunamb e (by simp))
      (segmentBytes streamID segID segmentClass (kept ++ es1)) hpre hlt
    refine ⟨es1, t', w, prefix_append _ _, hbytes, hstops, ?_⟩
    rw [← append_assoc, logDescriptors_append _ _ _ (kept ++ es1), length_append,
      ← hlogoff, logDescriptors, length_append]
    omega
  · obtain ⟨t', rfl⟩ : logBytes segID streamID off rest <+: p :=
      prefix_of_prefix_length_le (prefix_append _ _) himg (by omega)
    obtain ⟨w, hw, hstops⟩ := ht t' ((prefix_append_right_inj _).mp himg)
    refine ⟨rest, t', w, prefix_rfl, ?_, hstops, by omega⟩
    rw [segmentBytes_append, append_assoc]

end

end Tails

/-! ### Segment files -/

/-- A segment file with its entries: `kept` survive a crash, `rest` may be cut, and behind them
stands nothing or, in a sealed segment, a footer. -/
structure LogFile (streamID : UInt8) (segID : SegmentID) (segmentClass : SegmentClass)
    (file : File) (kept rest : List LogEntry) (tail : List UInt8) : Prop where
  bytes : file.bytes = segmentBytes streamID segID segmentClass (kept ++ rest) ++ tail
  durable : kept = [] ∨ segmentBytes streamID segID segmentClass kept <+: file.synced
  tail : tail = [] ∨ ∃ footer : SegmentFooter, footer.magic = segmentMagic ∧ tail = footer.encode
  seqs : (logSeqs (kept ++ rest)).Pairwise (· < ·)
  unambiguous : ∀ e ∈ kept ++ rest, e.Unambiguous

theorem replay_collect (ds sink : List CommitDescriptor) :
    replay collect ds sink = .ok (sink ++ ds) := by
  induction ds generalizing sink with
  | nil => simp [replay]
  | cons d ds ih => simp [replay, collect, ih]

/-- **Recovery of a segment after a crash** replays the entries that survive, and then some of
the others. -/
theorem LogFile.recover {streamID : UInt8} {segID : SegmentID} {segmentClass : SegmentClass}
    {file : File} {kept rest : List LogEntry} {tail img : List UInt8} {opts : RecoverOptions}
    (h : LogFile streamID segID segmentClass file kept rest tail) (hkept : kept ≠ [])
    (himg : file.synced <+: img) (himg' : img <+: file.bytes)
    (hstream : opts.streamID = streamID) (hclock : ∀ n, opts.expired n = false)
    (hoffset : 0 ≤ opts.safeOffset ∧ opts.safeOffset ≤ segmentHeaderSize)
    (hsafeSeq : opts.safeSeq = 0)
    (hrecords : (logDescriptors segID streamID segmentHeaderSize (kept ++ rest)).length ≤
      recoveryRecordLimit opts) (hreplay : img.length ≤ (recoveryByteLimits opts).1)
    (htrailing : img.length ≤ (recoveryByteLimits opts).2) :
    ∃ more, (recoverFromSegmentLog segID opts (some collect) [] img).err = none ∧
      (recoverFromSegmentLog segID opts (some collect) [] img).sink =
        logDescriptors segID streamID segmentHeaderSize kept ++ more := by
  subst hstream
  have hsurvives : segmentBytes opts.streamID segID segmentClass kept <+: img := by
    rcases h.durable with hnil | hdurable
    · exact absurd hnil hkept
    · exact hdurable.trans himg
  rw [h.bytes] at himg'
  obtain ⟨rest', tail', w, hrest', rfl, hstops, hcount⟩ := cut_segment hclock hsurvives himg'
    (fun e he => h.unambiguous e (mem_append_right _ he)) fun _ => stops_tail hclock h.tail _
  obtain ⟨rest'', rfl⟩ := hrest'
  have hseqs : (logSeqs (kept ++ rest')).Pairwise (· < ·) := by
    have hall := h.seqs
    rw [← append_assoc, logSeqs_append] at hall
    exact (pairwise_append.mp hall).1
  have hunamb : ∀ e ∈ kept ++ rest', e.Unambiguous := by
    intro e he
    refine h.unambiguous e ?_
    rw [← append_assoc]
    exact mem_append_left _ he
  have hlen : (logBytes segID opts.streamID segmentHeaderSize (kept ++ rest')).length +
        tail'.length ≤
      (segmentBytes opts.streamID segID segmentClass (kept ++ rest') ++ tail').length := by
    simp [length_segmentBytes]
  have hrec := recover_from_header hclock (newSegmentHeader segID segmentClass) rfl rfl hoffset
    hsafeSeq (kept ++ rest') tail' hseqs hunamb hstops ⟨by omega, by omega, by omega⟩
    (replay_collect _ [])
  rw [← append_assoc] at hrec
  refine ⟨logDescriptors segID opts.streamID
    (segmentHeaderSize + (logBytes segID opts.streamID segmentHeaderSize kept).length) rest', ?_⟩
  unfold segmentBytes
  rw [hrec]
  exact ⟨rfl, by rw [nil_append, logDescriptors_append]⟩

end Nufs.Storage
