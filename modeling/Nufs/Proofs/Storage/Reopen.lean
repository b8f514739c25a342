/-
Opening a store again.

`New` replays the segment with the highest number from the boundary its checkpoint
names, hands what it found to the index, and opens the next segment.  This file says
what it makes of a segment that holds a log and perhaps the torn beginning of one
further entry or footer.
-/
import Nufs.Lib.Maximum
import Nufs.Proofs.Storage.Writing
import Nufs.Proofs.Storage.Machine

namespace Nufs.Storage

open ByteFile Layout List AList Nat

/-! ### The boundary of a checkpoint -/

/--
The part of a log the checkpoint declares safe, and the sequence it trusts there.  A
checkpoint of an older segment declares nothing, and one of this segment points
behind an INDEX_SAFE marker.
-/
inductive Boundary (streamID : UInt8) (segID : SegmentID) (segmentClass : SegmentClass) :
    Option RecoveryCheckpoint → List LogEntry → UInt64 → Prop
  | start {cp : Option RecoveryCheckpoint} (h : ∀ c ∈ cp, c.segmentID < segID) :
      Boundary streamID segID segmentClass cp [] 0
  | marker (es : List LogEntry) {q : UInt64} (hq : q ≠ 0) :
      Boundary streamID segID segmentClass
        (some ⟨segID, (segmentBytes streamID segID segmentClass
          (es ++ [.safeAt q])).length, q⟩)
        (es ++ [.safeAt q]) q

variable {q : UInt64}

theorem Boundary.segmentID_le {streamID : UInt8} {segID : SegmentID} {segmentClass : SegmentClass}
    {cp : Option RecoveryCheckpoint} {before : List LogEntry}
    (h : Boundary streamID segID segmentClass cp before q) : ∀ c ∈ cp, c.segmentID ≤ segID := by
  intro c hc
  cases h with
  | start hcp => exact le_of_lt (hcp c hc)
  | marker es hq =>
    cases hc
    exact le_refl segID

/-- The last bytes of a marker do not look like a BatchCommit. -/
theorem decode_indexSafe_end (q : UInt64) : ∃ e, BatchCommit.decode
      ((CommitRecord.indexSafe q).encode.drop (commitRecordSize - batchCommitSize)) = .error e := by
  have hsplit : (CommitRecord.indexSafe q).encode =
      layout [f64 q, f8 CommitLogOp.indexSafe.toByte, f64 0, f64 0] ++
        (layout [f64 0, f64 0] ++ layout [f32 0, f32 0, f32 0, f64 0, f64 0,
          f32 (crc32c (layout (CommitRecord.indexSafe q).checkedFields))]) := by
    simp [CommitRecord.encode, CommitRecord.checkedFields, CommitRecord.indexSafe]
  -- Two of its zero fields stand where the magic number would.
  have hmagic : u32At ((CommitRecord.indexSafe q).encode.drop
      (commitRecordSize - batchCommitSize)) 0 = 0 := by
    have hdrop : ∀ bs : List UInt8, u32At (bs.drop (commitRecordSize - batchCommitSize)) 0 =
        u32At bs (25 + 6) := by
      intro bs
      simp [u32At, fieldAt, commitRecordSize, batchCommitSize]
    rw [hdrop, hsplit]
    exact (u32At_append_right (layout [f64 q, f8 CommitLogOp.indexSafe.toByte, f64 0, f64 0]) _
      6).trans (u32At_append_left _ _ (by simp))
  unfold BatchCommit.decode
  rw [if_neg (by simp [commitRecordSize, batchCommitSize])]
  simp only [hmagic]
  exact ⟨_, if_pos (by decide)⟩

/-- Recovery accepts the offset behind a marker as a safe start. -/
theorem validateSafeRecoveryStart_marker (pre rest : List UInt8) (streamID : UInt8) (hq : q ≠ 0)
    (hpre : segmentHeaderSize ≤ pre.length) :
    validateSafeRecoveryStart (pre ++ ((CommitRecord.indexSafe q).encode ++ rest))
      (pre.length + commitRecordSize) streamID = .ok (q, true) := by
  set m := (CommitRecord.indexSafe q).encode with hm
  have hlen : m.length = commitRecordSize := CommitRecord.length_encode _
  have hcommit : readFullAt (pre ++ (m ++ rest)) batchCommitSize
      (pre.length + commitRecordSize - batchCommitSize) =
        some (m.drop (commitRecordSize - batchCommitSize)) := by
    have hread := readFullAt_append (pre ++ m.take (commitRecordSize - batchCommitSize))
      (m.drop (commitRecordSize - batchCommitSize)) rest
    rw [append_assoc, ← append_assoc (m.take _), take_append_drop] at hread
    simpa [hlen, commitRecordSize, batchCommitSize] using hread
  have hmarker : indexSafeAt (pre ++ (m ++ rest)) pre.length = some (.indexSafe q) :=
    indexSafeAt_encode pre rest rfl
  obtain ⟨e, hdecode⟩ := decode_indexSafe_end q
  rw [← hm] at hdecode
  have hroom : segmentHeaderSize + batchCommitSize ≤ pre.length + commitRecordSize := by
    simp only [batchCommitSize, commitRecordSize]
    omega
  unfold validateSafeRecoveryStart
  simp only [if_pos hroom, hcommit, Option.map_some, hdecode, Nat.add_sub_cancel, hmarker,
    if_pos (Nat.add_le_add_right hpre commitRecordSize)]
  exact if_pos hq

/-- Recovery starts behind the marker its checkpoint names. -/
theorem recoverStart_marker (cfg : Config) (clock : RecoveryClock) {c : RecoveryCheckpoint}
    {pre rest : List UInt8} {hdr : SegmentHeader}
    (hoff : c.safeOffset = pre.length + commitRecordSize) (hq : c.safeSeq ≠ 0)
    (hge : segmentHeaderSize ≤ pre.length)
    (hhead : (pre ++ ((CommitRecord.indexSafe c.safeSeq).encode ++ rest)).take segmentHeaderSize =
      hdr.encode) (hm : hdr.magic = segmentMagic) (hv : hdr.version = formatVersion) :
    recoverStart (recoverOptions cfg clock (some c) c.segmentID)
        (pre ++ ((CommitRecord.indexSafe c.safeSeq).encode ++ rest)) =
      .ok (c.safeOffset, c.safeSeq) := by
  have hvalid := validateSafeRecoveryStart_marker pre rest cfg.streamID hq hge
  rw [← hoff] at hvalid
  have hmax : max c.safeOffset segmentHeaderSize = c.safeOffset := max_eq_left (by omega)
  have hne : c.safeOffset ≠ segmentHeaderSize := by
    rw [hoff]
    simp only [commitRecordSize]
    omega
  have hlong : ¬ (pre ++ ((CommitRecord.indexSafe c.safeSeq).encode ++ rest)).length <
      c.safeOffset := by simp [hoff]
  have hheader : ¬ (pre ++ ((CommitRecord.indexSafe c.safeSeq).encode ++ rest)).length <
      segmentHeaderSize := by
    rw [length_append]
    omega
  have hnonneg : ¬ (c.safeOffset : Int) < 0 := by omega
  simp only [recoverStart, recoverOptions, if_true, if_neg hheader, hhead,
    SegmentHeader.decode_encode hdr hm hv, bind, Except.bind, if_neg hnonneg, Int.toNat_natCast,
    hmax, if_neg hlong, if_neg hne, hvalid]
  simp

section Options

variable {cfg : Config} (clock : RecoveryClock) {cp : Option RecoveryCheckpoint} {segID : SegmentID}
  {segmentClass : SegmentClass} {before : List LogEntry}

theorem length_segmentBytes_ge (streamID : UInt8) (es : List LogEntry) :
    segmentHeaderSize ≤ (segmentBytes streamID segID segmentClass es).length := by
  rw [length_segmentBytes]
  omega

section

variable (h : Boundary cfg.streamID segID segmentClass cp before q)
include h

theorem Boundary.safeSeq_eq :
    (recoverOptions cfg clock cp segID).safeSeq = q := by
  cases h with
  | start hcp =>
    cases cp with
    | none => rfl
    | some c => simp [recoverOptions, Nat.ne_of_lt (hcp c rfl)]
  | marker es hq => simp [recoverOptions]

theorem Boundary.safeOffset_eq :
    (recoverOptions cfg clock cp segID).safeOffset =
      (segmentBytes cfg.streamID segID segmentClass before).length := by
  cases h with
  | start hcp =>
    rw [length_segmentBytes]
    cases cp with
    | none => rfl
    | some c => simp [recoverOptions, Nat.ne_of_lt (hcp c rfl), logBytes]
  | marker es hq => simp [recoverOptions]

/-- Recovery starts at the boundary, and trusts its sequence. -/
theorem Boundary.recoverStart_eq
    (rest : List UInt8) : recoverStart (recoverOptions cfg clock cp segID)
        (segmentBytes cfg.streamID segID segmentClass before ++ rest) =
      .ok ((segmentBytes cfg.streamID segID segmentClass before).length, q) := by
  cases h with
  | start hcp =>
    have hoffset : (recoverOptions cfg clock cp segID).safeOffset = segmentHeaderSize := by
      cases cp with
      | none => rfl
      | some c => simp [recoverOptions, Nat.ne_of_lt (hcp c rfl)]
    have hstart : recoverStart (recoverOptions cfg clock cp segID)
        ((newSegmentHeader segID segmentClass).encode ++ rest) = .ok (segmentHeaderSize, 0) :=
      recoverStart_header _ rfl rfl rest (by omega) (by omega)
    simpa [segmentBytes, logBytes] using hstart
  | marker es hq =>
    set pre := segmentBytes cfg.streamID segID segmentClass es with hpre
    have hbytes : segmentBytes cfg.streamID segID segmentClass
        (es ++ [.safeAt q]) = pre ++ (CommitRecord.indexSafe q).encode := by
      rw [segmentBytes_append, ← hpre]
      simp [logBytes, LogEntry.bytes, LogEntry.safeAt]
    have hhead : (pre ++ ((CommitRecord.indexSafe q).encode ++ rest)).take segmentHeaderSize =
        (newSegmentHeader segID segmentClass).encode := by
      rw [hpre, segmentBytes, append_assoc,
        ← (newSegmentHeader segID segmentClass).length_encode, take_left]
    rw [hbytes, append_assoc]
    exact recoverStart_marker cfg clock (by simp) hq (length_segmentBytes_ge _ es) hhead rfl rfl

end

end Options

/-! ### Replaying into the overlay -/

namespace CommitDescriptor

def key (d : CommitDescriptor) : Key := (d.extentID, d.generation)

/-- The location recovery publishes. -/
def value (d : CommitDescriptor) (state : ExtentState) : Value where
  segmentID := d.segmentID
  offset := d.offset
  storedLen := d.storedLen
  logicalLen := d.logicalLen
  state
  checksum := d.checksum

/-- What recovery does to the overlay for one record. -/
def applyTo (o : Overlay) (d : CommitDescriptor) : Overlay :=
  match d.op with
  | .put => o.put d.key (d.value .durable)
  | .delete => o.put d.key (d.value .tombstoned)
  | .relocate => o

end CommitDescriptor

theorem replay_recoverApply (ds : List CommitDescriptor) (o : Overlay) :
    replay recoverApply ds o = .ok (ds.foldl CommitDescriptor.applyTo o) := by
  induction ds generalizing o with
  | nil => rfl
  | cons d ds ih =>
    have happly : recoverApply d o = .ok (d.applyTo o) := by
      unfold recoverApply CommitDescriptor.applyTo
      cases d.op <;> rfl
    rw [replay, happly]
    exact ih _

theorem draining_applyTo (ds : List CommitDescriptor) (o : Overlay) :
    (ds.foldl CommitDescriptor.applyTo o).draining = o.draining := by
  induction ds generalizing o with
  | nil => rfl
  | cons d ds ih =>
    rw [foldl_cons, ih]
    unfold CommitDescriptor.applyTo
    cases d.op <;> rfl

/-- An extent of which only puts are replayed is left alone, or found at one of them. -/
theorem lookup_applyTo {ds : List CommitDescriptor} {k : Key}
    (hput : ∀ d ∈ ds, d.key = k → d.op = .put) (o : Overlay) : ((∀ d ∈ ds, d.key ≠ k) ∧
        (ds.foldl CommitDescriptor.applyTo o).entries.lookup k = o.entries.lookup k) ∨
      ∃ d ∈ ds, d.key = k ∧
        (ds.foldl CommitDescriptor.applyTo o).entries.lookup k = some (d.value .durable) := by
  induction ds generalizing o with
  | nil => exact .inl ⟨by simp, rfl⟩
  | cons d ds ih =>
    rw [foldl_cons]
    rcases ih (fun d' hd' => hput d' (.tail _ hd')) (d.applyTo o) with
      ⟨hnone, heq⟩ | ⟨d', hd', hkey, heq⟩
    · by_cases hk : d.key = k
      · refine .inr ⟨d, .head _, hk, ?_⟩
        rw [heq, CommitDescriptor.applyTo, hput d (.head _) hk, ← hk]
        exact lookup_insert _
      · refine .inl ⟨forall_mem_cons.mpr ⟨hk, hnone⟩, ?_⟩
        rw [heq]
        unfold CommitDescriptor.applyTo
        cases d.op
        · exact lookup_insert_ne (.symm hk)
        · exact lookup_insert_ne (.symm hk)
        · rfl
    · exact .inr ⟨d', .tail _ hd', hkey, heq⟩

/-- The descriptors of a segment's log. -/
def segmentDescriptors (streamID : UInt8) (segID : SegmentID) (es : List LogEntry) :
    List CommitDescriptor :=
  logDescriptors segID streamID segmentHeaderSize es

theorem segmentDescriptors_append (streamID : UInt8) (segID : SegmentID)
    (segmentClass : SegmentClass) (es es' : List LogEntry) :
    segmentDescriptors streamID segID (es ++ es') = segmentDescriptors streamID segID es ++
        logDescriptors segID streamID (segmentBytes streamID segID segmentClass es).length es' := by
  rw [segmentDescriptors, logDescriptors_append, length_segmentBytes]
  rfl

section Recover

variable {cfg : Config} {clock : RecoveryClock} {cp : Option RecoveryCheckpoint} {segID : SegmentID}
  {segmentClass : SegmentClass} {before : List LogEntry}

/-- What recovery needs to replay a file that holds a log from the boundary of its checkpoint on;
`w` more records may be seen in its tail. -/
structure Replayable (cfg : Config) (clock : RecoveryClock) (cp : Option RecoveryCheckpoint)
    (segID : SegmentID) (segmentClass : SegmentClass) (before after : List LogEntry)
    (tail : List UInt8) (w : Nat) (file : List UInt8) (q : UInt64) : Prop where
  bytes : file = segmentBytes cfg.streamID segID segmentClass (before ++ after) ++ tail
  boundary : Boundary cfg.streamID segID segmentClass cp before q
  seqs : (logSeqs after).Pairwise (· < ·)
  safe : ∀ x ∈ logSeqs after, q < x
  unambiguous : ∀ e ∈ after, e.Unambiguous
  stops : Stops segID (recoverOptions cfg clock cp segID) recoverApply
    (segmentBytes cfg.streamID segID segmentClass (before ++ after)) tail w

variable (cfg segID segmentClass) in
/-- What recovery makes of it. -/
def replayedOutcome (before after : List LogEntry) (tail : List UInt8) (q : UInt64) :
    RecoverOutcome Overlay where
  result := some (logReport segID cfg.streamID
    (segmentBytes cfg.streamID segID segmentClass before).length q q after tail.length)
  err := none
  file := segmentBytes cfg.streamID segID segmentClass (before ++ after)
  sink := (logDescriptors segID cfg.streamID
    (segmentBytes cfg.streamID segID segmentClass before).length after).foldl
      CommitDescriptor.applyTo .empty

/-- **Recovery from a checkpoint** replays what follows its boundary, and nothing else, or finds
its limits exceeded. -/
theorem Replayable.recover {after : List LogEntry} {tail file : List UInt8} {w : Nat}
    (h : Replayable cfg clock cp segID segmentClass before after tail w file q)
    (hclock : ∀ n, clock.reading n = false) :
    recoverFromSegmentLog segID (recoverOptions cfg clock cp segID) (some recoverApply) .empty file =
        replayedOutcome cfg segID segmentClass before after tail q ∨
      ¬ Within (recoverOptions cfg clock cp segID)
          ((segmentDescriptors cfg.streamID segID (before ++ after)).length + w)
          (file.length - (segmentBytes cfg.streamID segID segmentClass before).length)
          (file.length - (segmentBytes cfg.streamID segID segmentClass before).length) ∧
        (recoverFromSegmentLog segID (recoverOptions cfg clock cp segID) (some recoverApply) .empty
          file).err = some .recoveryBudgetExceeded := by
  obtain ⟨rfl, hboundary, hseqs, hsafe, hunamb, htail⟩ := h
  have hclock' : ∀ n, (recoverOptions cfg clock cp segID).expired n = false := hclock
  have hstart := hboundary.recoverStart_eq clock (logBytes segID cfg.streamID
    (segmentBytes cfg.streamID segID segmentClass before).length after ++ tail)
  rw [segmentBytes_append] at htail
  have hrec := recover_log hclock' after
    (segmentBytes cfg.streamID segID segmentClass before) tail rfl hstart
    (pairwise_cons.mpr ⟨hsafe, hseqs⟩) (by rw [hboundary.safeSeq_eq clock]; exact hsafe) hunamb
    htail (replay_recoverApply _ .empty)
  rw [hboundary.safeSeq_eq clock] at hrec
  rw [segmentBytes_append, append_assoc]
  rcases hrec with hrec | ⟨hover, hspent⟩
  · refine .inl (hrec.trans ?_)
    rw [replayedOutcome, segmentBytes_append]
    rfl
  · refine .inr ⟨fun hwithin => hover ?_, hspent⟩
    obtain ⟨hrecords, hreplayed, htrailing⟩ := hwithin
    rw [segmentDescriptors_append _ _ segmentClass, length_append] at hrecords
    rw [length_append, Nat.add_sub_cancel_left, length_append] at hreplayed htrailing
    refine ⟨?_, (Nat.le_add_right _ _).trans hreplayed, (Nat.le_add_left _ _).trans htrailing⟩
    exact (Nat.le_add_left _ _).trans ((Nat.add_assoc _ _ w).symm.trans_le hrecords)

end Recover

/-! ### The highest segment -/

/-- No segment has a higher number; zero stands for no segment at all. -/
structure Highest (files : Dir) (h : SegmentID) : Prop where
  found : h = 0 ∨ (files.lookup h).isSome
  above : ∀ id, h < id → files.lookup id = none

theorem Highest.maxSegmentID_eq {files : Dir} {h : SegmentID} (hh : Highest files h) :
    maxSegmentID files = h := by
  have hle : maxSegmentID files ≤ h := by
    rcases Maximum.foldr_max_mem files.keys with hzero | hmem
    · exact (Nat.le_of_eq hzero).trans (Nat.zero_le h)
    · by_contra hlt
      have hlook := hh.above (maxSegmentID files) (Nat.lt_of_not_le hlt)
      exact absurd (mem_keys.mpr hmem) (lookup_eq_none.mp hlook)
  have hge : h ≤ maxSegmentID files := by
    rcases hh.found with rfl | hsome
    · exact Nat.zero_le _
    · exact Maximum.le_foldr_max (mem_keys.mp (lookup_isSome.mp hsome))
  exact le_antisymm hle hge

theorem Highest.insert {files : Dir} {h : SegmentID} (hh : Highest files h) (file : File) :
    Highest (files.insert h file) h := by
  refine ⟨.inr (by simp), fun id hid => ?_⟩
  rw [lookup_insert_ne (ne_of_gt hid)]
  exact hh.above id hid

/-! ### Torn logs -/

/-- Sequences below this bound never make a marker look like another entry. -/
def seqBound : Nat := 2 ^ 62

theorem lt_of_seqBound {n : Nat} (h : n < seqBound) : n < 2 ^ 64 := h.trans (by decide)

theorem unambiguous_indexSafe (h : q.toNat < seqBound) :
    (LogEntry.safeAt q).Unambiguous := by
  have hne : ∀ x : UInt32, 2 ^ 30 ≤ x.toNat → UInt32.ofNat (q.toNat / 2 ^ 32) ≠ x := by
    rintro x hx rfl
    rw [UInt32.toNat_ofNat'] at hx
    unfold seqBound at h
    omega
  exact ⟨hne _ (by decide), hne _ (by decide)⟩

theorem segmentBytes_safeAt (streamID : UInt8) (segID : SegmentID) (segmentClass : SegmentClass)
    (es : List LogEntry) (q : UInt64) :
    segmentBytes streamID segID segmentClass (es ++ [.safeAt q]) =
      segmentBytes streamID segID segmentClass es ++ (CommitRecord.indexSafe q).encode :=
  segmentBytes_concat _ _ _ _ _

theorem logSeqs_safeAt (es : List LogEntry) (q : UInt64) :
    logSeqs (es ++ [.safeAt q]) = logSeqs es := by
  simp [logSeqs, LogEntry.seq?, LogEntry.safeAt]

namespace Store

/--
What is on disk of a log: the highest segment holds `before` and `after` durably, and
of `rest` and a footer some first part.
-/
structure TornFile (cfg : Config) (files : Dir) (cp : Option RecoveryCheckpoint) (h : SegmentID)
    (segmentClass : SegmentClass) (file : File) (before after rest : List LogEntry)
    (tail : List UInt8) (q : UInt64) : Prop where
  highest : Highest files h
  lookup : files.lookup h = some file
  pos : 0 < h
  bytes : file.bytes <+: segmentBytes cfg.streamID h segmentClass (before ++ after ++ rest) ++ tail
  durable : before ++ after = [] ∨
    segmentBytes cfg.streamID h segmentClass (before ++ after) <+: file.synced ∧
      segmentBytes cfg.streamID h segmentClass (before ++ after) <+: file.bytes
  tail : tail = [] ∨ ∃ footer : SegmentFooter, footer.magic = segmentMagic ∧ tail = footer.encode
  seqs : (logSeqs (after ++ rest)).Pairwise (· < ·)
  unambiguous : ∀ e ∈ after ++ rest, e.Unambiguous
  seq_lt : ∀ x ∈ logSeqs (after ++ rest), x.toNat < seqBound
  safe_lt : q.toNat < seqBound
  boundary : Boundary cfg.streamID h segmentClass cp before q
  safe : ∀ x ∈ logSeqs (after ++ rest), q < x

section TornFile

variable {cfg : Config} {files files' : Dir} {cp : Option RecoveryCheckpoint} {h : SegmentID}
  {segmentClass : SegmentClass} {file file' : File} {before after rest : List LogEntry}
  {tail : List UInt8}

section

variable (ht : TornFile cfg files cp h segmentClass file before after rest tail q)
include ht

/-- **A crash** leaves a torn log again. -/
theorem TornFile.crash
    (keep : SegmentID → Nat) : TornFile cfg (files.crash keep) cp h segmentClass
      (file.cut (keep h)) before after rest tail q := by
  have hlookup : (files.crash keep).lookup h = some (file.cut (keep h)) := by
    rw [Dir.lookup_crash, ht.lookup]
    rfl
  refine { ht with
    highest := ⟨.inr (by rw [hlookup]; rfl), fun id hid => ?_⟩
    lookup := hlookup
    bytes := (List.take_prefix _ _).trans ht.bytes
    durable := ht.durable.imp_right fun ⟨hsynced, hbytes⟩ => ?_ }
  · rw [Dir.lookup_crash, ht.highest.above id hid]
    rfl
  · have hcut : segmentBytes cfg.streamID h segmentClass (before ++ after) <+:
        (file.cut (keep h)).bytes :=
      prefix_take_iff.mpr ⟨hbytes, hsynced.length_le.trans (Nat.le_max_right _ _)⟩
    exact ⟨hcut, hcut⟩

/-- A file with its header holds what is durable of the log. -/
theorem TornFile.front
    (hlen : segmentHeaderSize ≤ file.bytes.length) :
    segmentBytes cfg.streamID h segmentClass (before ++ after) <+: file.bytes := by
  rcases ht.durable with hnil | ⟨-, hbytes⟩
  · -- Only the header was written, and the file is long enough to hold it.
    have hheader : (segmentBytes cfg.streamID h segmentClass []).length = segmentHeaderSize := by
      simp [segmentBytes, logBytes]
    have hbytes := ht.bytes
    rw [hnil, nil_append] at hbytes
    rw [hnil]
    refine prefix_of_prefix_length_le ?_ hbytes (by rw [hheader]; exact hlen)
    refine .trans ?_ (prefix_append _ tail)
    have happend := segmentBytes_append cfg.streamID h segmentClass [] rest
    rw [nil_append] at happend
    rw [happend]
    exact prefix_append _ _
  · exact hbytes

/-- Recovery finds what was durable and some first part of the rest. -/
theorem TornFile.replayable
    (hlen : segmentHeaderSize ≤ file.bytes.length) {clock : RecoveryClock}
    (hclock : ∀ n, clock.reading n = false) :
    ∃ rest' tail' w, rest' <+: rest ∧
      Replayable cfg clock cp h segmentClass before (after ++ rest') tail' w file.bytes q ∧
      (segmentDescriptors cfg.streamID h (before ++ (after ++ rest'))).length + w ≤
        (segmentDescriptors cfg.streamID h (before ++ after ++ rest)).length := by
  have hreading : ∀ n, (recoverOptions cfg clock cp h).expired n = false := hclock
  obtain ⟨rest', tail', w, hrest, himg, hstops, hrecords⟩ := cut_segment hreading (ht.front hlen)
    ht.bytes (fun e he => ht.unambiguous e (mem_append_right _ he))
    fun _ => stops_tail hreading ht.tail _
  have hpre : after ++ rest' <+: after ++ rest := (prefix_append_right_inj after).mpr hrest
  have hsub : logSeqs (after ++ rest') <+: logSeqs (after ++ rest) := hpre.filterMap _
  rw [append_assoc] at himg hstops hrecords
  exact ⟨rest', tail', w, hrest, ⟨himg, ht.boundary, ht.seqs.sublist hsub.sublist,
    fun x hx => ht.safe x (hsub.subset hx), fun e he => ht.unambiguous e (hpre.subset he), hstops⟩,
    hrecords⟩

end

section

variable (ht : TornFile cfg files cp h segmentClass file before after rest [] q)
include ht

/-- Something is appended behind a log of which nothing is missing, and perhaps cut off. -/
theorem TornFile.append {whole t tail' : List UInt8} {more : List LogEntry}
    (htorn : TornAppend h files files' file whole t file')
    (hwhole : file.bytes ++ whole =
      segmentBytes cfg.streamID h segmentClass (before ++ after ++ (rest ++ more)) ++ tail')
    (htail : tail' = [] ∨ ∃ footer : SegmentFooter, footer.magic = segmentMagic ∧
      tail' = footer.encode) (hseqs : (logSeqs (after ++ (rest ++ more))).Pairwise (· < ·))
    (hnew : ∀ x ∈ logSeqs more, q < x ∧ x.toNat < seqBound)
    (hunamb : ∀ e ∈ more, e.Unambiguous) :
    TornFile cfg files' cp h segmentClass file' before after (rest ++ more) tail' q := by
  have hsplit : ∀ x ∈ logSeqs (after ++ (rest ++ more)),
      x ∈ logSeqs (after ++ rest) ∨ x ∈ logSeqs more := by
    intro x hx
    rwa [← append_assoc, logSeqs_append, mem_append] at hx
  refine ⟨⟨.inr ?_, ?_⟩, htorn.lookup, ht.pos, ?_, ?_, htail, hseqs, ?_, ?_, ht.safe_lt,
    ht.boundary, ?_⟩
  · rw [htorn.lookup]
    rfl
  · intro id hid
    rw [htorn.others id (Nat.ne_of_gt hid)]
    exact ht.highest.above id hid
  · rw [htorn.bytes, ← hwhole]
    exact (prefix_append_right_inj _).mpr htorn.torn
  · refine ht.durable.imp_right fun ⟨hsynced, hbytes⟩ => ⟨?_, ?_⟩
    · rcases htorn.synced with heq | ⟨heq, -⟩
      · rwa [heq]
      · rw [heq]
        exact hbytes.trans (prefix_append _ _)
    · rw [htorn.bytes]
      exact hbytes.trans (prefix_append _ _)
  · intro e he
    rw [← append_assoc, mem_append] at he
    exact he.elim (ht.unambiguous e) (hunamb e)
  · intro x hx
    exact (hsplit x hx).elim (ht.seq_lt x) fun hx => (hnew x hx).2
  · intro x hx
    exact (hsplit x hx).elim (ht.safe x) fun hx => (hnew x hx).1

section

variable (hbytes : file.bytes = segmentBytes cfg.streamID h segmentClass (before ++ after ++ rest))
include hbytes

/-- A marker is appended, and perhaps cut off. -/
theorem TornFile.mark {safe : UInt64} {t : List UInt8}
    (htorn : TornAppend h files files' file (CommitRecord.indexSafe safe).encode t file')
    (hsafe : safe.toNat < seqBound) :
    TornFile cfg files' cp h segmentClass file' before after (rest ++ [.safeAt safe]) [] q := by
  have hnone : logSeqs [.safeAt safe] = [] := rfl
  refine ht.append htorn ?_ (.inl rfl) ?_ (by simp [hnone]) ?_
  · rw [hbytes, append_nil, ← append_assoc, segmentBytes_safeAt]
  · rw [← append_assoc, logSeqs_safeAt]
    exact ht.seqs
  · intro e he
    obtain rfl := mem_singleton.mp he
    exact unambiguous_indexSafe hsafe

/-- A checkpoint behind a marker that is durable. -/
theorem TornFile.marked {safe : UInt64}
    (htorn : TornAppend h files files' file (CommitRecord.indexSafe safe).encode
      (CommitRecord.indexSafe safe).encode file') (hsynced : file'.synced = file'.bytes)
    (hne : safe ≠ 0) (hsafe : safe.toNat < seqBound) :
    TornFile cfg files' (some ⟨h, file.bytes.length + commitRecordSize, safe⟩) h segmentClass file'
      (before ++ after ++ rest ++ [.safeAt safe]) [] [] [] safe := by
  have hall : file'.bytes =
      segmentBytes cfg.streamID h segmentClass (before ++ after ++ rest ++ [.safeAt safe]) := by
    rw [htorn.bytes, hbytes, segmentBytes_safeAt]
  have hoff : file.bytes.length + commitRecordSize =
      (segmentBytes cfg.streamID h segmentClass (before ++ after ++ rest ++
        [.safeAt safe])).length := by
    rw [← hall, htorn.bytes, length_append, CommitRecord.length_encode]
  refine ⟨(ht.mark hbytes htorn hsafe).highest, htorn.lookup, ht.pos, ?_, .inr ⟨?_, ?_⟩, .inl rfl,
    .nil, by simp, by simp [logSeqs], hsafe, ?_, by simp [logSeqs]⟩
  · rw [append_nil, append_nil, append_nil, hall]
  · rw [append_nil, hsynced, hall]
  · rw [append_nil, hall]
  · rw [hoff]
    exact .marker _ hne

end

end

/-- A new segment, perhaps without its whole header. -/
theorem tornFile_new {u : List UInt8} (hpos : 0 < h)
    (hfresh : ∀ id, h < id → files.lookup id = none) (hnew : files.lookup h = some ⟨u, []⟩)
    (hu : u <+: (newSegmentHeader h segmentClass).encode) (hcp : ∀ c ∈ cp, c.segmentID < h) :
    TornFile cfg files cp h segmentClass ⟨u, []⟩ [] [] [] [] 0 := by
  refine ⟨⟨.inr ?_, hfresh⟩, hnew, hpos, ?_, .inl rfl, .inl rfl, .nil, by simp, by simp [logSeqs],
    by decide, .start hcp, by simp [logSeqs]⟩
  · rw [hnew]
    rfl
  · simpa [segmentBytes, logBytes] using hu

end TornFile

end Store

/-! ### New -/

/-- The segment size a store works with. -/
def Config.size (cfg : Config) : Nat :=
  if cfg.segmentSize = 0 then defaultDataSegmentSize else cfg.segmentSize

/-- The deadline never passes. -/
def RecoveryClock.Quiet (clock : RecoveryClock) : Prop :=
  (∀ n, clock.reading n = false) ∧ ∀ n, clock.starting n = false

namespace Store

/-- A store with nothing in memory: all locations are in its index. -/
structure Settled (cfg : Config) (h : SegmentID) (index : Index) (seq : UInt64) (s : Store) :
    Prop where
  streamID : s.streamID = cfg.streamID
  segmentSize : s.segmentSize = cfg.size
  overlay : s.overlay = .empty
  applyCh : s.applyCh = []
  published : AllPublished s
  streamSeq : s.streamSeq = seq
  index : s.index = index
  checkpoint : ∀ c ∈ s.checkpoint, c.segmentID ≤ h

/-- A store that `New` returned: it writes an empty log in the next segment. -/
structure Opened (cfg : Config) (h : SegmentID) (index : Index) (seq : UInt64) (s : Store) : Prop
    extends Settled cfg h index seq s where
  writing : ∃ file, Writing s [] [] file
  segmentID : s.alloc.segmentID = h + 1
  recordCount : s.alloc.recordCount = 0

variable {cfg : Config} {h : SegmentID} {s : Store} {clock : RecoveryClock} {file : File}

variable {seq : UInt64} {disk : Disk}

/-- The last part of `New` opens the next segment. -/
theorem Settled.opens {index : Index} (hs : Settled cfg h index seq s) (hh : Highest s.files h)
    (now : UInt64) :
    ∃ s', newActiveSegment none now (classForStream cfg.streamID)
        { s with nextSeg := maxSegmentID s.files } = (.ok (), none, s') ∧
      Opened cfg h index seq s' := by
  rw [hh.maxSegmentID_eq]
  obtain ⟨-, hwriting, -⟩ := newActiveSegment_writing now (classForStream cfg.streamID)
    (s := { s with nextSeg := h }) hh.above
  refine ⟨(newActiveSegment none now (classForStream cfg.streamID) { s with nextSeg := h }).2.2,
    ?_, ?_⟩
  · simp only [newActiveSegment, runOps_none]
  · simp only [newActiveSegment, runOps_none] at hwriting ⊢
    exact ⟨⟨hs.streamID, hs.segmentSize, hs.overlay, hs.applyCh,
      hs.published.congr rfl, hs.streamSeq, hs.index, hs.checkpoint⟩, ⟨_, hwriting⟩, rfl, rfl⟩

/-- The store after a flush that has written its marker. -/
def flushed (s : Store) (files : Dir) : Store :=
  { s with
    files
    alloc := s.alloc.consume commitRecordSize
    index := s.index.applyNow s.overlay.drained
    checkpoint := some ⟨s.alloc.segmentID, s.alloc.offset + commitRecordSize, s.flushSeq⟩
    overlay := .empty
    safeSeq := s.flushSeq
    flushMutations := s.flushMutations - s.flushMutations }

section

variable (hne : s.overlay.drained ≠ [])
  (hroom : s.alloc.offset + batchCommitSize ≤ s.alloc.maxSegmentBytes)
  (hseg : s.alloc.segmentID ≠ 0) (hlen : segmentHeaderSize ≤ s.alloc.offset) (hseq : s.flushSeq ≠ 0)
include hne hroom hseg hlen hseq

/-- A flush that has room for its marker succeeds. -/
theorem flush_eq : flush s = (.ok (), s.flushed (runOps [.write s.alloc.segmentID s.alloc.offset
      (CommitRecord.indexSafe s.flushSeq).encode, .sync s.alloc.segmentID] none s.files).2.2) := by
  have htail : s.alloc.currentTail = .ok s.alloc.offset := if_neg (by omega)
  have hvalid : ¬ (s.alloc.segmentID = 0 ∨
      s.alloc.offset + commitRecordSize < segmentHeaderSize ∨ s.flushSeq = 0) := by
    rintro (h | h | h)
    · exact hseg h
    · omega
    · exact hseq h
  simp only [flush, flushDrain, if_neg hne, writeIndexSafeLocked, applyNow, htail, runOps_none,
    storeRecoveryCheckpoint, if_neg hvalid]
  rfl

/-- Its marker is durable. -/
theorem flush_ok (hfile : s.files.lookup s.alloc.segmentID = some file)
    (hoff : s.alloc.offset = file.bytes.length) :
    ∃ files file', TornAppend s.alloc.segmentID s.files files file
        (CommitRecord.indexSafe s.flushSeq).encode (CommitRecord.indexSafe s.flushSeq).encode file' ∧
      file'.synced = file'.bytes ∧ flush s = (.ok (), s.flushed files) := by
  have hbars : ∀ op ∈ [FileOp.sync s.alloc.segmentID],
      op = .stage ∨ op = .sync s.alloc.segmentID := by simp
  obtain ⟨t, file', htorn, hok, -⟩ := runOps_durable (CommitRecord.indexSafe s.flushSeq).encode
    hbars mem_cons_self none hfile
  obtain ⟨hsynced, rfl⟩ := hok (by rw [runOps_none])
  rw [← hoff] at htorn
  exact ⟨_, file', htorn, hsynced.trans htorn.bytes.symm, flush_eq hne hroom hseg hlen hseq⟩

end

/-- The store `New` starts with. -/
abbrev opens (cfg : Config) (disk : Disk) : Store :=
  .opening cfg.streamID cfg.segmentSize disk.files disk.index disk.checkpoint

/-- The parts of `New` one after the other. -/
theorem new_settled {now : UInt64} {s1 s2 : Store} {index : Index}
    (hrecover : recoverActiveSegment cfg clock (opens cfg disk) = .ok s1)
    (hpersist : persistRecoveredOverlay clock now s1 = .ok s2) (hs : Settled cfg h index seq s2)
    (hh : Highest s2.files h) :
    (∃ s, Store.new cfg clock now disk = .ok s ∧ Opened cfg h index seq s) ∨
      Store.new cfg clock now disk = .error .recoveryBudgetExceeded ∧
        ∃ n, clock.starting n = true := by
  obtain ⟨s3, hnew, hopened⟩ := hs.opens hh now
  unfold Store.new
  rw [hrecover]
  dsimp only
  rw [hpersist]
  dsimp only
  rw [hnew]
  by_cases hlate : clock.starting 3 = true
  · exact .inr ⟨if_pos hlate, _, hlate⟩
  · exact .inl ⟨s3, if_neg hlate, hopened⟩

theorem new_error {now : UInt64} {s1 : Store} {e : Err}
    (hrecover : recoverActiveSegment cfg clock (opens cfg disk) = .ok s1)
    (hpersist : persistRecoveredOverlay clock now s1 = .error e) :
    Store.new cfg clock now disk = .error e := by
  unfold Store.new
  rw [hrecover]
  dsimp only
  rw [hpersist]

theorem recoverActiveSegment_empty (cfg : Config) (clock : RecoveryClock) (index : Index) :
    let s : Store := .opening cfg.streamID cfg.segmentSize ∅ index none
    recoverActiveSegment cfg clock s =
      if clock.starting 0 then .error .recoveryBudgetExceeded else .ok s := rfl

theorem persistRecoveredOverlay_empty (cfg : Config) (clock : RecoveryClock) (now : UInt64)
    (index : Index) :
    let s : Store := .opening cfg.streamID cfg.segmentSize ∅ index none
    persistRecoveredOverlay clock now s =
      if clock.starting 1 then .error .recoveryBudgetExceeded else .ok s := rfl

/-- `New` on a disk without segments. -/
theorem new_none (cfg : Config) (clock : RecoveryClock) (now : UInt64) (index : Index) :
    (∃ s, Store.new cfg clock now ⟨∅, index, none⟩ = .ok s ∧ Opened cfg 0 index 0 s) ∨
      Store.new cfg clock now ⟨∅, index, none⟩ = .error .recoveryBudgetExceeded ∧
        ∃ n, clock.starting n = true := by
  let disk : Disk := ⟨∅, index, none⟩
  have hsettled : Settled cfg 0 index 0 (opens cfg disk) :=
    ⟨rfl, rfl, rfl, rfl, ⟨rfl, rfl, rfl⟩, rfl, rfl, by simp [opening, disk]⟩
  have hrecover : recoverActiveSegment cfg clock (opens cfg disk) = _ :=
    recoverActiveSegment_empty cfg clock index
  have hpersist := persistRecoveredOverlay_empty cfg clock now index
  by_cases hstart : clock.starting 0 = true
  · refine .inr ⟨?_, _, hstart⟩
    unfold Store.new
    rw [show recoverActiveSegment _ _ _ = _ from hrecover, if_pos hstart]
  · replace hrecover := hrecover.trans (if_neg hstart)
    by_cases hbefore : clock.starting 1 = true
    · exact .inr ⟨new_error hrecover (hpersist.trans (if_pos hbefore)), _, hbefore⟩
    · exact new_settled hrecover (hpersist.trans (if_neg hbefore)) hsettled
        ⟨.inl rfl, fun _ _ => rfl⟩

/-- `New` on an empty disk. -/
theorem new_empty (cfg : Config) (hclock : clock.Quiet) (now : UInt64) :
    ∃ s, Store.new cfg clock now ⟨∅, ∅, none⟩ = .ok s ∧ Opened cfg 0 ∅ 0 s := by
  refine (new_none cfg clock now ∅).resolve_right ?_
  rintro ⟨-, n, hlate⟩
  simp [hclock.2] at hlate

theorem logDescriptors_eq_nil {segID : SegmentID} {streamID : UInt8} {off : Nat}
    {es : List LogEntry} (h : logSeqs es = []) : logDescriptors segID streamID off es = [] := by
  induction es generalizing off with
  | nil => rfl
  | cons e es ih =>
    cases e with
    | batch b => simp [logSeqs, LogEntry.seq?] at h
    | marker m hop =>
      rw [logDescriptors, LogEntry.descriptors, nil_append]
      exact ih (by simpa [logSeqs, LogEntry.seq?] using h)

theorem getLastD_mem {α : Type} {l : List α} (h : l ≠ []) (a : α) : l.getLastD a ∈ l := by
  rw [List.getLastD_eq_getLast?, List.getLast?_eq_some_getLast h]
  exact getLast_mem h

theorem seq_or_zero (q : UInt64) : (if 0 < q then q else 0) = q := by
  split
  · rfl
  · rename_i hzero
    rw [UInt64.not_lt, UInt64.le_zero_iff] at hzero
    exact hzero.symm

theorem max_seq_zero (q : UInt64) : max q 0 = q := by
  show (if q ≤ 0 then 0 else q) = q
  split
  · rename_i hzero
    exact (UInt64.le_zero_iff.mp hzero).symm
  · rfl

/-- The store behind a replay that succeeds. -/
structure Recovered (cfg : Config) (h : SegmentID) (disk : Disk) (file : File)
    (out : RecoverOutcome Overlay) (res : RecoverResult) (s : Store) : Prop where
  settled : Settled cfg h s.index s.streamSeq { s with overlay := .empty }
  index : s.index = disk.index
  seq : s.streamSeq = res.lastSeq
  overlay : s.overlay = out.sink
  files : s.files =
    disk.files.insert h (if 0 < res.trailingBytes then ⟨out.file, out.file⟩ else file)
  checkpoint : s.checkpoint = disk.checkpoint

theorem recoverActiveSegment_ok {out : RecoverOutcome Overlay} {res : RecoverResult}
    (hmax : maxSegmentID disk.files = h) (hfile : disk.files.lookup h = some file)
    (hout : recoverFromSegmentLog h (recoverOptions cfg clock disk.checkpoint h)
      (some recoverApply) .empty file.bytes = out) (herr : out.err = none)
    (hresult : out.result = some res) (hcp : ∀ c ∈ disk.checkpoint, c.segmentID ≤ h) :
    ∃ s, recoverActiveSegment cfg clock (opens cfg disk) = .ok s ∧
      Recovered cfg h disk file out res s := by
  have hrun : recoverActiveSegment cfg clock (opens cfg disk) = .ok
        { opens cfg disk with
          files := disk.files.insert h
            (if 0 < res.trailingBytes then ⟨out.file, out.file⟩ else file)
          overlay := out.sink
          safeSeq := if 0 < res.safeSeq then res.safeSeq else 0
          streamSeq := max res.lastSeq 0
          publishedSeq := if 0 < res.lastSeq then res.lastSeq else 0
          flushSeq := if 0 < res.lastSeq then res.lastSeq else 0 } := by
    subst hmax
    unfold recoverActiveSegment
    simp only [opens, opening, hfile, hout, herr, hresult]
  rw [seq_or_zero, max_seq_zero] at hrun
  exact ⟨_, hrun, ⟨rfl, rfl, rfl, rfl, ⟨rfl, rfl, rfl⟩, rfl, rfl, hcp⟩, rfl, rfl, rfl, rfl, rfl⟩

/-- A store behind the replay of a log: its newest segment ends with a whole entry. -/
structure Replayed (cfg : Config) (disk : Disk) (h : SegmentID) (segmentClass : SegmentClass)
    (before after rest : List LogEntry) (q : UInt64) (s : Store) (file : File) : Prop where
  settled : Settled cfg h s.index s.streamSeq { s with overlay := .empty }
  index : s.index = disk.index
  seq : s.streamSeq = (logSeqs (after ++ rest)).getLastD q
  overlay : s.overlay = (replayedOutcome cfg h segmentClass before (after ++ rest) [] q).sink
  torn : TornFile cfg s.files s.checkpoint h segmentClass file before after rest [] q
  bytes : file.bytes = segmentBytes cfg.streamID h segmentClass (before ++ after ++ rest)

section Replay

variable {segmentClass : SegmentClass} {before after rest : List LogEntry}

/-- **The first part of `New`** replays the log and cuts off what stands behind it. -/
theorem TornFile.replays {rest' : List LogEntry} {tail tail' : List UInt8}
    (ht : TornFile cfg disk.files disk.checkpoint h segmentClass file before after rest tail q)
    (hrest : rest' <+: rest)
    (hbytes : file.bytes =
      segmentBytes cfg.streamID h segmentClass (before ++ (after ++ rest')) ++ tail')
    (hrec : recoverFromSegmentLog h (recoverOptions cfg clock disk.checkpoint h)
      (some recoverApply) .empty file.bytes =
        replayedOutcome cfg h segmentClass before (after ++ rest') tail' q) :
    ∃ s file', recoverActiveSegment cfg clock (opens cfg disk) = .ok s ∧
      Replayed cfg disk h segmentClass before after rest' q s file' := by
  obtain ⟨s, hrun, hs⟩ := recoverActiveSegment_ok ht.highest.maxSegmentID_eq ht.lookup hrec rfl rfl
    ht.boundary.segmentID_le
  have hpre : after ++ rest' <+: after ++ rest := (prefix_append_right_inj after).mpr hrest
  have hsub : logSeqs (after ++ rest') <+: logSeqs (after ++ rest) := hpre.filterMap _
  obtain ⟨file', hfiles, hfile, hdurable⟩ : ∃ file' : File, s.files = disk.files.insert h file' ∧
      file'.bytes = segmentBytes cfg.streamID h segmentClass (before ++ after ++ rest') ∧
      (file'.synced = file'.bytes ∨ file' = file) := by
    refine ⟨_, hs.files, ?_⟩
    rw [append_assoc]
    split_ifs with htrailing
    · exact ⟨rfl, .inl rfl⟩
    · obtain rfl : tail' = [] := length_eq_zero_iff.mp (Nat.eq_zero_of_not_pos htrailing)
      rw [append_nil] at hbytes
      exact ⟨hbytes, .inr rfl⟩
  have hfront : segmentBytes cfg.streamID h segmentClass (before ++ after) <+: file'.bytes := by
    rw [hfile, segmentBytes_append _ _ _ (before ++ after)]
    exact prefix_append _ _
  refine ⟨s, file', hrun, hs.settled, hs.index, hs.seq, hs.overlay, ?_, hfile⟩
  rw [hs.checkpoint, hfiles]
  refine ⟨ht.highest.insert file', lookup_insert _, ht.pos, ?_, ?_, .inl rfl,
    ht.seqs.sublist hsub.sublist, fun e he => ht.unambiguous e (hpre.subset he),
    fun x hx => ht.seq_lt x (hsub.subset hx), ht.safe_lt, ht.boundary,
    fun x hx => ht.safe x (hsub.subset hx)⟩
  · rw [append_nil, hfile]
  · rcases hdurable with hsynced | rfl
    · exact .inr ⟨hsynced ▸ hfront, hfront⟩
    · exact ht.durable

section

variable (hr : Replayed cfg disk h segmentClass before after rest q s file)
include hr

theorem Replayed.seq_lt :
    s.streamSeq.toNat < seqBound := by
  rw [hr.seq]
  by_cases hnil : logSeqs (after ++ rest) = []
  · rw [hnil]
    exact hr.torn.safe_lt
  · exact hr.torn.seq_lt _ (getLastD_mem hnil q)

/-- Something was replayed only if there is a batch, and sequences are positive. -/
theorem Replayed.batch
    (hkeys : s.overlay.entries.keys ≠ []) : after ++ rest ≠ [] ∧ s.streamSeq ≠ 0 := by
  have hsome : logSeqs (after ++ rest) ≠ [] := by
    intro hnone
    rw [hr.overlay, replayedOutcome, logDescriptors_eq_nil hnone] at hkeys
    exact hkeys rfl
  refine ⟨fun hnil => hsome (by rw [hnil]; rfl), ?_⟩
  have hpos := logSeqs_pos (getLastD_mem hsome q)
  rw [← hr.seq] at hpos
  exact UInt64.pos_iff_ne_zero.mp hpos

/-- **The second part of `New`** hands what was replayed to the index. -/
theorem Replayed.persist
    (clock : RecoveryClock) (now : UInt64)
    (hroom : after ++ rest ≠ [] → file.bytes.length + batchCommitSize ≤ cfg.size) :
    (∃ s', persistRecoveredOverlay clock now s = .ok s' ∧
        Settled cfg h (s.index.applyNow s.overlay.drained) s.streamSeq s' ∧
        ∃ file' before' after' rest' q',
          TornFile cfg s'.files s'.checkpoint h segmentClass file' before' after' rest' [] q') ∨
      persistRecoveredOverlay clock now s = .error .recoveryBudgetExceeded ∧
        ∃ n, clock.starting n = true := by
  have hsettled := hr.settled
  have ht := hr.torn
  have hlen : segmentHeaderSize ≤ file.bytes.length := by
    rw [hr.bytes]
    exact length_segmentBytes_ge _ _
  have hdraining : s.overlay.draining = ∅ := by
    rw [hr.overlay]
    exact draining_applyTo _ .empty
  have hfile : s.files.lookup (maxSegmentID s.files) = some file := by
    rw [ht.highest.maxSegmentID_eq]
    exact ht.lookup
  unfold persistRecoveredOverlay
  simp only [hfile, ht.highest.maxSegmentID_eq, if_neg (not_lt.mpr hlen)]
  by_cases hbefore : clock.starting 1 = true
  · exact .inr ⟨if_pos hbefore, _, hbefore⟩
  rw [if_neg hbefore]
  by_cases hkeys : s.overlay.entries.keys = []
  · rw [if_pos hkeys]
    have hentries : s.overlay.entries.entries = [] := by simpa [AList.keys, List.keys] using hkeys
    have hoverlay : s.overlay = .empty := by
      have hempty : s.overlay.entries = ∅ := AList.ext hentries
      cases hs : s.overlay with
      | mk entries draining =>
        rw [hs] at hempty hdraining
        simp only at hempty hdraining
        rw [hempty, hdraining]
        rfl
    have hdrained : s.overlay.drained = [] := by simp [Overlay.drained, hentries]
    refine .inl ⟨s, rfl, ?_, _, _, _, _, _, ht⟩
    rw [hdrained]
    have hsame : { s with overlay := .empty } = s := by rw [← hoverlay]
    rw [hsame] at hsettled
    exact hsettled
  · have hdrained : s.overlay.drained ≠ [] := by
      simpa [Overlay.drained, AList.keys, List.keys] using hkeys
    obtain ⟨hbatch, hseq⟩ := hr.batch hkeys
    have hroom := hroom hbatch
    set alloc := ((Allocator.new h (classForStream s.streamID) s.segmentSize now).consume
      (file.bytes.length - segmentHeaderSize)).recordCommit s.streamSeq with halloc
    have hsize : s.segmentSize = cfg.size := hsettled.segmentSize
    have hoffset : alloc.offset = file.bytes.length := by
      show segmentHeaderSize + (file.bytes.length - segmentHeaderSize) = _
      omega
    have hmax : alloc.maxSegmentBytes = cfg.size := by
      show (if s.segmentSize = 0 then defaultDataSegmentSize else s.segmentSize) = cfg.size
      rw [hsize, if_neg (by simp only [batchCommitSize] at hroom; omega)]
    have hflushSeq : s.flushSeq = s.streamSeq := hsettled.published.flushSeq
    obtain ⟨files, file', htorn, hsynced, hflush⟩ := flush_ok (s := { s with alloc := alloc })
      hdrained (by rw [hmax, hoffset]; exact hroom) (pos_iff_ne_zero.mp ht.pos)
      (by rw [hoffset]; exact hlen) (by rw [hflushSeq]; exact hseq) ht.lookup hoffset
    rw [if_neg hkeys, hflush]
    by_cases hbehind : clock.starting 2 = true
    · exact .inr ⟨if_pos hbehind, _, hbehind⟩
    refine .inl ⟨_, if_neg hbehind, ?_, ?_⟩
    · refine ⟨hsettled.streamID, hsettled.segmentSize, rfl, hsettled.applyCh,
        ⟨hsettled.published.publishedSeq, hsettled.published.flushSeq,
          hsettled.published.readyBatches⟩, hsettled.streamSeq, rfl, fun c hc => ?_⟩
      cases hc
      exact le_refl h
    · dsimp only [flushed] at htorn ⊢
      rw [hflushSeq] at htorn ⊢
      rw [hoffset]
      exact ⟨_, _, _, _, _, ht.marked hr.bytes htorn hsynced hseq hr.seq_lt⟩

/-- **`New` behind a replay**: what was replayed goes to the index, and the next segment is
opened. -/
theorem Replayed.new
    (hrecover : recoverActiveSegment cfg clock (opens cfg disk) = .ok s) (now : UInt64)
    (hroom : after ++ rest ≠ [] → file.bytes.length + batchCommitSize ≤ cfg.size) :
    (∃ s', Store.new cfg clock now disk = .ok s' ∧
        Opened cfg h (disk.index.applyNow s.overlay.drained) s.streamSeq s') ∨
      Store.new cfg clock now disk = .error .recoveryBudgetExceeded ∧
        ∃ n, clock.starting n = true := by
  rcases hr.persist clock now hroom with ⟨s2, hpersist, hs2, _, _, _, _, _, ht2⟩ | ⟨hlate, hclock⟩
  · rw [hr.index] at hs2
    exact new_settled hrecover hpersist hs2 ht2.highest
  · exact .inr ⟨new_error hrecover hlate, hclock⟩

end

/-- Something was replayed only if there is room for a marker. -/
theorem TornFile.room {file' : File} {rest' : List LogEntry} {tail : List UInt8}
    (ht : TornFile cfg disk.files disk.checkpoint h segmentClass file before after rest tail q)
    (hr : Replayed cfg disk h segmentClass before after rest' q s file')
    (hle : file'.bytes.length ≤ file.bytes.length)
    (hroom : file.bytes.length + batchCommitSize ≤ cfg.size ∨
      (file.bytes.length : Int) ≤ (recoverOptions cfg clock disk.checkpoint h).safeOffset)
    (hsome : after ++ rest' ≠ []) : file'.bytes.length + batchCommitSize ≤ cfg.size := by
  rcases hroom with hroom | hshort
  · omega
  · -- The file ends where recovery starts.
    rw [ht.boundary.safeOffset_eq clock] at hshort
    have hsteps := logSteps_le h cfg.streamID
      (segmentBytes cfg.streamID h segmentClass before).length (after ++ rest')
    have hpos := length_pos_iff.mpr hsome
    rw [hr.bytes, append_assoc, segmentBytes_append, length_append] at hle
    omega

end Replay

end Store

end Nufs.Storage
