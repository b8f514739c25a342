/-
What committing a batch does to a segment.

The bytes `commitBatch` appends are the bytes of a batch of the abstract log,
placed at the end of the file.  A fault leaves a first part of them; from the write
of the commit record on it leaves all of them.  The allocator moves on in any case.
-/
import Nufs.Storage.Store
import Nufs.Proofs.Storage.Recover

namespace Nufs.Storage

open ByteFile List

/-! ### Pending writes and framed records -/

/-- The pending write is the framed record, which is short enough for its 32-bit length. -/
structure PendingWrite.Frames (pw : PendingWrite) (r : FramedRecord) : Prop where
  header : pw.header = r.header
  index : pw.idxBuf = r.index
  stored : pw.stored = r.stored
  short : r.bytes.length < 2 ^ 32

namespace PendingWrite.Frames

variable {pw : PendingWrite} {r : FramedRecord}

theorem bytes_eq (h : pw.Frames r) : pw.bytes = r.bytes := by
  unfold PendingWrite.bytes FramedRecord.bytes
  rw [h.header, h.index, h.stored]

theorem framing_eq (h : pw.Frames r) : pw.framing.toNat = r.bytes.length := by
  have hshort := h.short
  have hlen := r.length_bytes
  unfold PendingWrite.framing recordFraming
  rw [h.header]
  unfold RecordHeader.framing at hlen
  simp only [UInt32.toNat_add, UInt32.toNat_ofNat']
  omega

end PendingWrite.Frames

namespace Store

/-! ### Reservation -/

/-- The writes of a batch, placed one behind the other. -/
def placeFrom (segID : SegmentID) : Nat → UInt64 → List PendingWrite → List PlacedWrite
  | _, _, [] => []
  | off, seq, pw :: batch =>
    { pw with segID, offset := off, streamSeq := seq } ::
      placeFrom segID (off + pw.framing.toNat) (seq + 1) batch

@[simp] theorem length_placeFrom (segID : SegmentID) (off : Nat) (seq : UInt64)
    (batch : List PendingWrite) : (placeFrom segID off seq batch).length = batch.length := by
  induction batch generalizing off seq with
  | nil => rfl
  | cons pw batch ih => simp [placeFrom, ih]

variable {batch : List PendingWrite} {rs : List FramedRecord} {s : Store}

section

variable (h : List.Forall₂ PendingWrite.Frames batch rs) (segID : SegmentID) (off : Nat)
  (seq : UInt64)
include h

theorem descriptor_placeFrom : (placeFrom segID off seq batch).map PlacedWrite.descriptor =
      recordsDescriptors segID off rs := by
  induction h generalizing off seq with
  | nil => rfl
  | cons hpw _ ih =>
    simp only [placeFrom, map_cons, recordsDescriptors, ih, hpw.framing_eq]
    congr 1
    unfold PlacedWrite.descriptor RecordHeader.descriptor FramedRecord.descriptor
    rw [hpw.header]

theorem writes_placeFrom :
    Writes segID off ((placeFrom segID off seq batch).map fun pw => .write segID pw.offset pw.bytes)
      (recordsBytes rs) := by
  induction h generalizing off seq with
  | nil => exact .nil off
  | cons hpw _ ih =>
    simp only [placeFrom, map_cons, hpw.framing_eq, hpw.bytes_eq]
    exact .write _ (ih _ _)

theorem length_recordsBytes :
    (recordsBytes rs).length = (batch.map fun pw => pw.framing.toNat).sum := by
  induction h with
  | nil => rfl
  | cons hpw _ ih =>
    simp only [recordsBytes, flatMap_cons, length_append, map_cons,
      sum_cons, hpw.framing_eq] at ih ⊢
    rw [ih]

end

/-- What reservations change of an allocator, and what they leave. -/
structure Advanced (a a' : Allocator) (bytes records : Nat) : Prop where
  offset : a'.offset = a.offset + bytes
  recordCount : a'.recordCount = a.recordCount + records
  segmentID : a'.segmentID = a.segmentID
  segmentClass : a'.segmentClass = a.segmentClass
  maxSegmentBytes : a'.maxSegmentBytes = a.maxSegmentBytes
  maxRecords : a'.maxRecords = a.maxRecords

/-- What a reservation takes. -/
theorem reserve_eq_ok {a alloc : Allocator} {framing storedLen : UInt32} {extent : ExtentID}
    {off : Nat} (h : a.reserve framing extent storedLen = .ok (off, alloc)) :
    off = a.offset ∧ a.offset + framing.toNat ≤ a.maxSegmentBytes ∧
      Advanced a alloc framing.toNat 1 := by
  unfold Allocator.reserve at h
  by_cases hcount : a.maxRecords ≤ a.recordCount
  · rw [if_pos hcount] at h
    cases h
  rw [if_neg hcount] at h
  by_cases hroom : a.maxSegmentBytes < a.offset + framing.toNat
  · rw [if_pos hroom] at h
    cases h
  · rw [if_neg hroom] at h
    cases h
    exact ⟨rfl, Nat.le_of_not_lt hroom, ⟨rfl, rfl, rfl, rfl, rfl, rfl⟩⟩

theorem reserveRecords_eq (batch : List PendingWrite) (s : Store)
    (hbytes : s.alloc.offset + (batch.map fun pw => pw.framing.toNat).sum ≤ s.alloc.maxSegmentBytes)
    (hrecords : s.alloc.recordCount + batch.length ≤ s.alloc.maxRecords) :
    ∃ alloc, Advanced s.alloc alloc (batch.map fun pw => pw.framing.toNat).sum batch.length ∧
      reserveRecords batch s = (.ok (placeFrom s.alloc.segmentID s.alloc.offset s.streamSeq batch),
          { s with alloc, streamSeq := s.streamSeq + UInt64.ofNat batch.length }) := by
  induction batch generalizing s with
  | nil => exact ⟨s.alloc, ⟨rfl, rfl, rfl, rfl, rfl, rfl⟩, by simp [reserveRecords, placeFrom]⟩
  | cons pw batch ih =>
    simp only [map_cons, sum_cons, length_cons] at hbytes hrecords ⊢
    have hfull : ¬ s.alloc.maxRecords ≤ s.alloc.recordCount := by omega
    have hroom : ¬ s.alloc.maxSegmentBytes < s.alloc.offset + pw.framing.toNat := by omega
    obtain ⟨alloc, hadv, hrest⟩ := ih { s with
        alloc :=
          { s.alloc with
            offset := s.alloc.offset + pw.framing.toNat
            payloadBytes := s.alloc.payloadBytes + pw.header.storedLen.toNat
            recordCount := s.alloc.recordCount + 1
            minExtent := if !s.alloc.hasRecord || pw.header.extentID < s.alloc.minExtent then
              pw.header.extentID else s.alloc.minExtent
            maxExtent := if !s.alloc.hasRecord || s.alloc.maxExtent < pw.header.extentID then
              pw.header.extentID else s.alloc.maxExtent
            hasRecord := true }
        streamSeq := s.streamSeq + 1 }
      (by simp only; omega) (by simp only; omega)
    have hseq : s.streamSeq + 1 + UInt64.ofNat batch.length =
        s.streamSeq + UInt64.ofNat (batch.length + 1) := by
      rw [UInt64.ofNat_add, UInt64.add_assoc, UInt64.add_comm 1]
      rfl
    refine ⟨alloc, ⟨?_, ?_, hadv.segmentID, hadv.segmentClass, hadv.maxSegmentBytes,
      hadv.maxRecords⟩, ?_⟩
    · have hoff := hadv.offset
      simp only at hoff
      omega
    · have hcount := hadv.recordCount
      simp only at hcount
      omega
    · simp only [reserveRecords, Allocator.reserve, if_neg hfull, if_neg hroom, hrest, placeFrom,
        hseq]

/-! ### The file -/

/-- What appending `whole` and a barrier, with a fault anywhere, leaves of a directory. -/
structure TornAppend (id : Nat) (d d' : Dir) (f : File) (whole t : List UInt8) (file : File) :
    Prop where
  torn : t <+: whole
  lookup : d'.lookup id = some file
  bytes : file.bytes = f.bytes ++ t
  synced : file.synced = f.synced ∨ file.synced = f.bytes ++ whole ∧ t = whole
  others : ∀ id' ≠ id, d'.lookup id' = d.lookup id'

theorem TornAppend.durable {id : Nat} {d d' : Dir} {f file : File} {whole : List UInt8}
    (h : TornAppend id d d' f whole whole file) (hsynced : file.synced = f.bytes ++ whole) :
    d'.lookup id = some ⟨f.bytes ++ whole, f.bytes ++ whole⟩ := by
  rw [h.lookup]
  obtain ⟨bytes, synced⟩ := file
  exact congrArg some (congrArg₂ File.mk h.bytes hsynced)

/-- **Appending, with a fault anywhere.**  Only a barrier makes anything durable, and a fault
behind the writes leaves everything written. -/
theorem runOps_torn {id : Nat} {ops bars : List FileOp} {whole : List UInt8} {d : Dir} {f : File}
    (hops : Writes id f.bytes.length ops whole) (hbars : ∀ op ∈ bars, op = .stage ∨ op = .sync id)
    (fault : Fault) (h : d.lookup id = some f) :
    let r := runOps (ops ++ bars) fault d
    ∃ t file, TornAppend id d r.2.2 f whole t file ∧
      (r.1 = true → t = whole ∧ (.sync id ∈ bars → file.synced = f.bytes ++ whole)) ∧
      (fault.spares ops.length = true → t = whole) := by
  intro r
  obtain ⟨t, hpre, happ, hall⟩ := runOps_writes hops rfl fault h
  have hr : r = _ := runOps_append ops bars fault d
  rcases hrun : runOps ops fault d with ⟨ok, fault', d'⟩
  rw [hrun] at happ hall hr
  cases ok with
  | false =>
    simp only at hr
    rw [hr, ← (runOps_result hrun).1]
    exact ⟨t, _, ⟨hpre, happ.file, rfl, .inl rfl, happ.others⟩, by simp, by simp⟩
  | true =>
    obtain rfl := hall rfl
    simp only at hr
    rw [hr]
    obtain ⟨hfile, hothers⟩ := runOps_barriers hbars fault' happ.file
    have hothers' := fun id' hne => (hothers id' hne).trans (happ.others id' hne)
    rcases hfile with ⟨hfile, hnone⟩ | hfile
    · exact ⟨t, _, ⟨hpre, hfile, rfl, .inl rfl, hothers'⟩,
        fun hok => ⟨rfl, fun hmem => absurd hmem (hnone hok)⟩, fun _ => rfl⟩
    · exact ⟨t, _, ⟨hpre, hfile, rfl, .inr ⟨rfl, rfl⟩, hothers'⟩, fun _ => ⟨rfl, fun _ => rfl⟩,
        fun _ => rfl⟩

/-- The operations of a commit write the records and the commit record. -/
theorem runOps_commit (hframes : List.Forall₂ PendingWrite.Frames batch rs) {segID : SegmentID}
    (seq : UInt64) (c : BatchCommit) (fault : Fault) {d : Dir} {f : File} {off : Nat}
    (h : d.lookup segID = some f) (hoff : off = f.bytes.length) :
    let whole := recordsBytes rs ++ c.encode
    let r := runOps (commitOps segID (placeFrom segID off seq batch)
      (off + (recordsBytes rs).length) c) fault d
    ∃ t file, TornAppend segID d r.2.2 f whole t file ∧
      (r.1 = true → t = whole ∧ file.synced = f.bytes ++ whole) ∧
      (fault.spares (batch.length + 2) = true → t = whole) := by
  subst hoff
  intro whole r
  have hwrites := (writes_placeFrom hframes segID f.bytes.length seq).append
    (.stage (.write c.encode (.nil _)))
  have hbars : ∀ op ∈ [FileOp.stage, .sync segID, .stage], op = .stage ∨ op = .sync segID := by
    simp
  obtain ⟨t, file, htorn, hok, hspares⟩ := runOps_torn hwrites hbars fault h
  rw [append_nil, append_assoc] at htorn hok
  rw [append_nil, length_append, length_map, length_placeFrom] at hspares
  exact ⟨t, file, htorn, fun hr => ⟨(hok hr).1, (hok hr).2 (by simp)⟩, hspares⟩

/-! ### Publication -/

/-- What committing, sealing and flushing never touch. -/
structure Kept (s s' : Store) : Prop where
  streamID : s'.streamID = s.streamID
  segmentSize : s'.segmentSize = s.segmentSize
  index : s'.index = s.index
  checkpoint : s'.checkpoint = s.checkpoint
  applyCh : s'.applyCh = s.applyCh
  locCache : s'.locCache = s.locCache

theorem Kept.refl (s : Store) : Kept s s := ⟨rfl, rfl, rfl, rfl, rfl, rfl⟩

theorem Kept.trans {s' s'' : Store} (h : Kept s s') (h' : Kept s' s'') : Kept s s'' :=
  ⟨h'.streamID.trans h.streamID, h'.segmentSize.trans h.segmentSize, h'.index.trans h.index,
    h'.checkpoint.trans h.checkpoint, h'.applyCh.trans h.applyCh, h'.locCache.trans h.locCache⟩

/-- Publication moves the watermark only. -/
theorem publishReady_eq (n : Nat) (s : Store) : publishReady n s = { s with
        readyBatches := (publishReady n s).readyBatches
        publishedSeq := (publishReady n s).publishedSeq
        flushSeq := (publishReady n s).flushSeq
        flushMutations := (publishReady n s).flushMutations } := by
  induction n generalizing s with
  | zero => rfl
  | succ n ih =>
    unfold publishReady
    cases s.readyBatches.lookup s.publishedSeq with
    | none => rfl
    | some next => exact ih _

theorem publishRecoveryBatch_eq (prev seq : UInt64) (n : Nat) (s : Store) :
    publishRecoveryBatch prev seq n s = { s with
        readyBatches := (publishRecoveryBatch prev seq n s).readyBatches
        publishedSeq := (publishRecoveryBatch prev seq n s).publishedSeq
        flushSeq := (publishRecoveryBatch prev seq n s).flushSeq
        flushMutations := (publishRecoveryBatch prev seq n s).flushMutations } :=
  publishReady_eq _ _

/-- Every published batch has reached the watermark. -/
structure AllPublished (s : Store) : Prop where
  publishedSeq : s.publishedSeq = s.streamSeq
  flushSeq : s.flushSeq = s.streamSeq
  readyBatches : s.readyBatches = ∅

theorem AllPublished.congr {s' : Store} (h : AllPublished s)
    (heq : (s'.publishedSeq, s'.flushSeq, s'.streamSeq, s'.readyBatches) =
      (s.publishedSeq, s.flushSeq, s.streamSeq, s.readyBatches)) : AllPublished s' := by
  simp only [Prod.mk.injEq] at heq
  obtain ⟨hpublished, hflush, hstream, hready⟩ := heq
  refine ⟨?_, ?_, hready.trans h.readyBatches⟩
  · rw [hpublished, hstream, h.publishedSeq]
  · rw [hflush, hstream, h.flushSeq]

/-- A batch that follows the watermark moves it at once. -/
theorem publishRecoveryBatch_next {prev seq : UInt64} {n : Nat} (hprev : s.publishedSeq = prev)
    (hready : s.readyBatches = ∅) : publishRecoveryBatch prev seq n s = { s with
        publishedSeq := seq, flushSeq := seq, flushMutations := s.flushMutations + n } := by
  subst hprev
  have hone : ((∅ : AList fun _ : UInt64 => PublishBatch).insert s.publishedSeq
      ⟨seq, n⟩).keys.length = 1 := by
    simp
  have herase : ((∅ : AList fun _ : UInt64 => PublishBatch).insert s.publishedSeq
      ⟨seq, n⟩).erase s.publishedSeq = ∅ := AList.ext (kerase_cons_eq rfl)
  unfold publishRecoveryBatch
  simp only [hready, hone, publishReady, AList.lookup_insert, herase]

theorem allPublished_publish {prev seq : UInt64} {n : Nat} (hprev : s.publishedSeq = prev)
    (hready : s.readyBatches = ∅) (hseq : s.streamSeq = seq) :
    AllPublished (publishRecoveryBatch prev seq n s) := by
  rw [publishRecoveryBatch_next hprev hready]
  exact ⟨hseq.symm, hseq.symm, hready⟩

/-! ### Appending a batch -/

/-- The batch that framed writes become when the stream stands at `seq`. -/
def batchAt (seq : UInt64) (rs : List FramedRecord) (hne : rs ≠ [])
    (hseq : seq.toNat + rs.length < 2 ^ 64) : Batch where
  seq := seq + UInt64.ofNat rs.length
  records := rs
  seq_pos := by
    have hpos := length_pos_iff.mpr hne
    rw [UInt64.lt_iff_toNat_lt, UInt64.toNat_add, UInt64.toNat_ofNat', UInt64.toNat_zero]
    omega
  nonempty := hne

theorem toNat_batchAt_seq {seq : UInt64} (hne : rs ≠ []) (hseq : seq.toNat + rs.length < 2 ^ 64) :
    (batchAt seq rs hne hseq).seq.toNat = seq.toNat + rs.length := by
  simp only [batchAt, UInt64.toNat_add, UInt64.toNat_ofNat']
  omega

theorem fits_iff {a : Allocator} :
    fits a batch = true ↔ a.offset + required batch ≤ a.maxSegmentBytes ∧
      a.recordCount + batch.length ≤ a.maxRecords := by
  simp [fits, Allocator.canReserveBatch, Allocator.canReserveRecords]

/-- What `appendBatch` computes when the batch fits. -/
theorem appendBatch_eq (fault : Fault) (hfits : fits s.alloc batch = true) :
    ∃ alloc, Advanced s.alloc alloc (required batch) batch.length ∧
      let placed := placeFrom s.alloc.segmentID s.alloc.offset s.streamSeq batch
      let s1 := { s with alloc, streamSeq := s.streamSeq + UInt64.ofNat batch.length }
      let commitOffset := s.alloc.offset + (batch.map fun pw => pw.framing.toNat).sum
      appendBatch fault batch s =
        match runOps (commitOps s.alloc.segmentID placed commitOffset
            (s1.batchCommit placed commitOffset)) fault s.files with
        | (false, _, files) => (.error .ioError, { s1 with files })
        | (true, fault, files) => publishBatch fault placed { s1 with files } := by
  obtain ⟨hbytes, hrecords⟩ := fits_iff.mp hfits
  unfold required at hbytes ⊢
  obtain ⟨alloc, hadv, hres⟩ := reserveRecords_eq batch s (by omega) hrecords
  have hroom : ¬ alloc.maxSegmentBytes < alloc.offset + batchCommitSize := by
    rw [hadv.maxSegmentBytes, hadv.offset]
    omega
  refine ⟨{ alloc with offset := alloc.offset + batchCommitSize },
    ⟨?_, hadv.recordCount, hadv.segmentID, hadv.segmentClass, hadv.maxSegmentBytes,
      hadv.maxRecords⟩, ?_⟩
  · have hoff := hadv.offset
    simp only
    omega
  · unfold appendBatch Allocator.reserveCommit
    rw [hres]
    dsimp only
    rewrite [if_neg hroom, ← hadv.offset, ← hadv.segmentID]
    rfl

/-- The commit record of a placed batch is the one of the abstract batch. -/
theorem batchCommit_placeFrom (hframes : List.Forall₂ PendingWrite.Frames batch rs) (s : Store)
    (seq : UInt64) (segID : SegmentID) (off : Nat) (hne : rs ≠ [])
    (hseq : seq.toNat + rs.length < 2 ^ 64)
    (hstream : s.streamSeq = seq + UInt64.ofNat batch.length) :
    s.batchCommit (placeFrom segID off seq batch) (off + (recordsBytes rs).length) =
      (batchAt seq rs hne hseq).commit segID s.streamID off := by
  have hlen : batch.length = rs.length := hframes.length_eq
  have hdesc := descriptor_placeFrom hframes segID off seq
  have hfirst : ((placeFrom segID off seq batch).head?.map PlacedWrite.offset).getD 0 = off := by
    cases hframes with
    | nil => exact absurd rfl hne
    | cons _ _ => rfl
  unfold batchCommit Batch.commit batchAt
  simp only [hdesc, hfirst, length_placeFrom, hstream, hlen]

/-- What a call of `appendBatch` does to the store, whether or not it succeeds: a first part `t`
of the batch's bytes stands behind the file, and the reservation is made. -/
structure BatchAppended (s s' : Store) (file : File) (b : Batch) (t : List UInt8)
    (file' : File) : Prop where
  kept : Kept s s'
  nextSeg : s'.nextSeg = s.nextSeg
  files : TornAppend s.alloc.segmentID s.files s'.files file
    (b.bytes s.alloc.segmentID s.streamID file.bytes.length) t file'
  alloc : Advanced s.alloc s'.alloc
    (b.bytes s.alloc.segmentID s.streamID file.bytes.length).length b.records.length
  streamSeq : s'.streamSeq = b.seq

/-- What a successful commit adds to that. -/
structure BatchPublished (s s' : Store) (placed : List PlacedWrite) : Prop where
  overlay : s'.overlay = putPlaced s.overlay placed
  published : AllPublished s → AllPublished s'

theorem publishBatch_cases (fault : Fault) (placed : List PlacedWrite) (s : Store) :
    (∃ e, publishBatch fault placed s =
        (.error e, { s with alloc := s.alloc.recordCommit s.streamSeq }) ∧ fault ≠ none) ∨
      (∃ e, publishBatch fault placed s = (.error e, { s with
            alloc := s.alloc.recordCommit s.streamSeq
            overlay := putPlaced s.overlay placed }) ∧ fault ≠ none) ∨
      publishBatch fault placed s = (.ok placed,
          publishRecoveryBatch (s.streamSeq - UInt64.ofNat placed.length) s.streamSeq placed.length
            { s with
              alloc := s.alloc.recordCommit s.streamSeq
              overlay := putPlaced s.overlay placed }) := by
  rcases fault with - | ⟨n, j⟩
  · exact .inr (.inr rfl)
  · match n with
    | 0 => exact .inl ⟨_, rfl, by simp⟩
    | 1 => exact .inr (.inl ⟨_, rfl, by simp⟩)
    | _ + 2 => exact .inr (.inr rfl)

/-- Without a fault nothing is left of one. -/
theorem runOps_fault_none {ops : List FileOp} {d d' : Dir} {ok : Bool} {fault' : Fault}
    (h : runOps ops none d = (ok, fault', d')) : fault' = none := by
  rw [runOps_none] at h
  exact (congrArg (fun r => r.2.1) h).symm

/-- **Appending a batch.** -/
theorem appendBatch_spec (fault : Fault) {file : File}
    (hframes : List.Forall₂ PendingWrite.Frames batch rs) (hne : rs ≠ [])
    (hseq : s.streamSeq.toNat + rs.length < 2 ^ 64) (hfits : fits s.alloc batch = true)
    (hfile : s.files.lookup s.alloc.segmentID = some file)
    (hoff : s.alloc.offset = file.bytes.length) :
    let b := batchAt s.streamSeq rs hne hseq
    let placed := placeFrom s.alloc.segmentID s.alloc.offset s.streamSeq batch
    let r := appendBatch fault batch s
    ∃ t file', BatchAppended s r.2 file b t file' ∧ (fault.spares (batch.length + 2) = true →
        t = b.bytes s.alloc.segmentID s.streamID file.bytes.length) ∧
      ((r.1 = .ok placed ∧ BatchPublished s r.2 placed ∧ file'.synced = file'.bytes ∧
          t = b.bytes s.alloc.segmentID s.streamID file.bytes.length) ∨
        ∃ e, r.1 = .error e ∧ fault ≠ none ∧ (r.2.overlay = s.overlay ∨
            r.2.overlay = putPlaced s.overlay placed ∧ file'.synced = file'.bytes ∧
              t = b.bytes s.alloc.segmentID s.streamID file.bytes.length)) := by
  intro b placed r
  have hsum := length_recordsBytes hframes
  have hlen : batch.length = rs.length := hframes.length_eq
  obtain ⟨alloc, hadv, heq⟩ := appendBatch_eq fault hfits
  have hwhole : (b.bytes s.alloc.segmentID s.streamID file.bytes.length).length =
      required batch := by
    rw [Batch.length_bytes]
    unfold required
    have hrecords : (recordsBytes b.records).length = _ := hsum
    omega
  have hadv' : Advanced s.alloc alloc
      (b.bytes s.alloc.segmentID s.streamID file.bytes.length).length b.records.length := by
    rw [hwhole]
    have hrs : b.records.length = batch.length := hlen.symm
    rwa [hrs]
  -- The operations write the abstract batch.
  simp only [← hsum] at heq
  have hcommit : b.commit s.alloc.segmentID s.streamID s.alloc.offset =
      b.commit s.alloc.segmentID s.streamID file.bytes.length := by rw [hoff]
  rw [batchCommit_placeFrom hframes _ s.streamSeq s.alloc.segmentID s.alloc.offset hne hseq rfl,
    hcommit] at heq
  obtain ⟨t, file', htorn, hok, hspares⟩ := runOps_commit hframes s.streamSeq
    (b.commit s.alloc.segmentID s.streamID file.bytes.length) fault hfile hoff
  rcases hrun : runOps _ fault s.files with ⟨ok, fault', files⟩
  rw [hrun] at htorn hok heq
  cases ok with
  | false =>
    have hr : r = _ := heq
    rw [hr]
    refine ⟨t, file', ⟨⟨rfl, rfl, rfl, rfl, rfl, rfl⟩, rfl, htorn, hadv', ?_⟩, hspares,
      .inr ⟨_, rfl, ?_, .inl rfl⟩⟩
    · simp [b, batchAt, hlen]
    · rintro rfl
      rw [runOps_none] at hrun
      simp at hrun
  | true =>
    obtain ⟨ht, hsynced⟩ := hok rfl
    have hdurable : file'.synced = file'.bytes := by rw [hsynced, htorn.bytes, ht]
    have hstream : ({ s with
        alloc, streamSeq := s.streamSeq + UInt64.ofNat batch.length, files } : Store).streamSeq =
        b.seq := by
      simp [b, batchAt, hlen]
    have hr : r = publishBatch fault' placed
      { s with alloc, streamSeq := s.streamSeq + UInt64.ofNat batch.length, files } := heq
    have happ : ∀ s' : Store, Kept s s' → s'.nextSeg = s.nextSeg → s'.files = files →
        s'.alloc = alloc.recordCommit (s.streamSeq + UInt64.ofNat batch.length) →
        s'.streamSeq = s.streamSeq + UInt64.ofNat batch.length →
        BatchAppended s s' file b t file' := by
      intro s' hkept hnext hfiles halloc hstr
      refine ⟨hkept, hnext, hfiles ▸ htorn, ?_, hstr.trans hstream⟩
      rw [halloc]
      exact ⟨hadv'.offset, hadv'.recordCount, hadv'.segmentID, hadv'.segmentClass,
        hadv'.maxSegmentBytes, hadv'.maxRecords⟩
    have hfault : fault' ≠ none → fault ≠ none := by
      rintro hne rfl
      exact hne (runOps_fault_none hrun)
    rcases publishBatch_cases fault' placed
      { s with alloc, streamSeq := s.streamSeq + UInt64.ofNat batch.length, files } with
      ⟨e, he, hne⟩ | ⟨e, he, hne⟩ | he
    · rw [hr, he]
      exact ⟨t, file', happ _ ⟨rfl, rfl, rfl, rfl, rfl, rfl⟩ rfl rfl rfl rfl, hspares,
        .inr ⟨e, rfl, hfault hne, .inl rfl⟩⟩
    · rw [hr, he]
      exact ⟨t, file', happ _ ⟨rfl, rfl, rfl, rfl, rfl, rfl⟩ rfl rfl rfl rfl, hspares,
        .inr ⟨e, rfl, hfault hne, .inr ⟨rfl, hdurable, ht⟩⟩⟩
    rw [hr, he, publishRecoveryBatch_eq]
    refine ⟨t, file', happ _ ⟨rfl, rfl, rfl, rfl, rfl, rfl⟩ rfl rfl rfl rfl, hspares,
      .inl ⟨rfl, ⟨rfl, ?_⟩, hdurable, ht⟩⟩
    intro hpub
    rw [← publishRecoveryBatch_eq]
    refine allPublished_publish ?_ hpub.readyBatches rfl
    rw [length_placeFrom]
    simp [hpub.publishedSeq]

end Store

end Nufs.Storage
