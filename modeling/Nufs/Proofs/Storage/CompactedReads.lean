/-
Reading across a compaction.

A segment file only grows until it is removed, so what could be read from it can be
read from it later on, provided it still opens: a file that looks sealed is
validated first.  A sealed active segment validates, and a record that does not end
like a footer leaves its segment unsealed to the eye.

The worker copies the stored bytes of a record and not its payload, so what one
reads afterwards is what the record was stored as.
-/
import Nufs.Proofs.Storage.Compaction
import Nufs.Proofs.Storage.Reader
import Nufs.Storage.Read
import Nufs.Lib.ExceptBind

namespace Nufs.Storage

open ByteFile Layout ExceptBind List AList Store

/-! ### Reading from a file that has grown -/

/-- A later reader of a segment: what the earlier one sees is there still. -/
structure Reader.Extends (r r' : Reader) : Prop where
  bytes : r.bytes <+: r'.bytes
  size : r.sizeBytes ≤ r'.bytes.length
  enc : r'.enc = r.enc

namespace Reader.Extends

variable {c : FrameCodec} {r r' : Reader} {layout : RecordLayout}

theorem readAt (h : r.Extends r') {n off : Nat} {bs : List UInt8}
    (hread : r.readAt n off = .ok bs) : r'.readAt n off = .ok bs := by
  obtain ⟨more, hmore⟩ := h.bytes
  unfold Reader.readAt readFullAt at hread ⊢
  by_cases hfits : off + n ≤ r.bytes.length
  · have hle : off + n ≤ r'.bytes.length := by
      rw [← hmore, length_append]
      omega
    have hslice : (r'.bytes.drop off).take n = (r.bytes.drop off).take n := by
      rw [← hmore, drop_append_of_le_length (by omega), take_append_of_le_length]
      rw [length_drop]
      omega
    rw [if_pos hfits] at hread
    rw [if_pos hle, hslice]
    exact hread
  · rw [if_neg hfits] at hread
    simp at hread

variable {offset : Nat} {storedLen logicalLen : UInt32} {e : FrameIndexEntry} {frame : List UInt8}
  {es : List FrameIndexEntry}

section

variable (h : r.Extends r')
include h

theorem readRecordLayout
    (hread : r.readRecordLayout offset storedLen logicalLen = .ok layout) :
    r'.readRecordLayout offset storedLen logicalLen = .ok layout := by
  unfold Reader.readRecordLayout at hread ⊢
  by_cases hoff : offset < segmentHeaderSize
  · rw [if_pos hoff] at hread
    simp at hread
  rw [if_neg hoff] at hread ⊢
  obtain ⟨hb, hhb, hread⟩ := bind_eq_ok.mp hread
  obtain ⟨header, hheader, hread⟩ := bind_eq_ok.mp hread
  refine bind_eq_ok.mpr ⟨hb, h.readAt hhb, bind_eq_ok.mpr ⟨header, hheader, ?_⟩⟩
  by_cases hlogical : header.logicalLen ≠ logicalLen
  · rw [if_pos hlogical] at hread
    simp at hread
  rw [if_neg hlogical] at hread ⊢
  obtain ⟨idxBuf, hidx, hread⟩ := bind_eq_ok.mp hread
  obtain ⟨entries, hentries, hread⟩ := bind_eq_ok.mp hread
  refine bind_eq_ok.mpr ⟨idxBuf, h.readAt hidx, bind_eq_ok.mpr ⟨entries, hentries, ?_⟩⟩
  dsimp only at hread ⊢
  split_ifs at hread with htotal hsize
  rw [if_neg htotal, if_neg (by have := h.bytes.length_le; have := h.size; omega)]
  obtain ⟨decKey, hkey, hread⟩ := bind_eq_ok.mp hread
  obtain ⟨tr, htr, hread⟩ := bind_eq_ok.mp hread
  refine bind_eq_ok.mpr ⟨decKey, ?_, bind_eq_ok.mpr ⟨tr, h.readAt htr, hread⟩⟩
  unfold Reader.resolveKey at hkey ⊢
  rw [h.enc]
  exact hkey

theorem fetchFrame (hread : r.fetchFrame layout e = .ok frame) :
    r'.fetchFrame layout e = .ok frame := by
  unfold Reader.fetchFrame at hread ⊢
  obtain ⟨bs, hbs, hread⟩ := bind_eq_ok.mp hread
  exact bind_eq_ok.mpr ⟨bs, h.readAt hbs, hread⟩

theorem readLogicalFrame (hread : r.readLogicalFrame c layout e = .ok frame) :
    r'.readLogicalFrame c layout e = .ok frame := by
  unfold Reader.readLogicalFrame at hread ⊢
  split_ifs at hread ⊢
  obtain ⟨bs, hbs, hread⟩ := bind_eq_ok.mp hread
  exact bind_eq_ok.mpr ⟨bs, h.fetchFrame hbs, hread⟩

theorem readPlainFrames {logicalLen : Nat} :
    ∀ {out payload : List UInt8}, r.readPlainFrames layout logicalLen es out = .ok payload →
      r'.readPlainFrames layout logicalLen es out = .ok payload := by
  induction es with
  | nil =>
    intro out payload hread
    exact hread
  | cons e es ih =>
    intro out payload hread
    unfold Reader.readPlainFrames at hread ⊢
    split_ifs at hread ⊢ with hin hfits
    split at hread
    · simp at hread
    · rename_i frame hframe
      rw [h.fetchFrame hframe]
      exact ih hread

theorem readLogicalFrames {logicalLen : Nat} :
    ∀ {out payload : List UInt8}, r.readLogicalFrames c layout logicalLen es out = .ok payload →
      r'.readLogicalFrames c layout logicalLen es out = .ok payload := by
  induction es with
  | nil =>
    intro out payload hread
    exact hread
  | cons e es ih =>
    intro out payload hread
    unfold Reader.readLogicalFrames at hread ⊢
    split at hread
    · simp at hread
    · rename_i frame hframe
      rw [h.readLogicalFrame hframe]
      exact ih hread

/-- **A payload that could be read can be read from the longer file.** -/
theorem readPayloadFrames {payload : List UInt8}
    (hread : r.readPayloadFrames c offset storedLen logicalLen = .ok payload) :
    r'.readPayloadFrames c offset storedLen logicalLen = .ok payload := by
  unfold Reader.readPayloadFrames at hread ⊢
  obtain ⟨layout, hlayout, hread⟩ := bind_eq_ok.mp hread
  obtain ⟨out, hout, hread⟩ := bind_eq_ok.mp hread
  refine bind_eq_ok.mpr ⟨layout, h.readRecordLayout hlayout, bind_eq_ok.mpr ⟨out, ?_, hread⟩⟩
  unfold Reader.readAllFrames at hout ⊢
  split_ifs at hout ⊢
  · exact h.readPlainFrames hout
  · exact h.readLogicalFrames hout

end

end Reader.Extends

variable {c : FrameCodec} {offset : Nat} {bytes file : List UInt8} {s : Store}

theorem length_of_readPayloadFrames {r : Reader} {storedLen logicalLen : UInt32}
    {payload : List UInt8} (h : r.readPayloadFrames c offset storedLen logicalLen = .ok payload) :
    logicalLen.toNat = payload.length := by
  unfold Reader.readPayloadFrames at h
  obtain ⟨layout, -, h⟩ := bind_eq_ok.mp h
  obtain ⟨out, -, h⟩ := bind_eq_ok.mp h
  split_ifs at h with hlen
  cases h
  exact (not_not.mp hlen).symm

/-! ### Files that open -/

/-- `OpenReader` does not refuse the file. -/
def Opens (bytes : List UInt8) : Prop :=
  hasEncodedSegmentFooter bytes = true → ∃ footer, validateSealedSegment bytes = .ok footer

/-- The file starts with a segment header. -/
def HasHeader (bytes : List UInt8) : Prop :=
  ∃ h, SegmentHeader.decode (bytes.take segmentHeaderSize) = .ok h

theorem openReader_iff {enc : Option (UInt64 → Except Err (List UInt8))} {rd : Reader} :
    Reader.openReaderWithEnc false enc bytes = .ok rd ↔
      Opens bytes ∧ rd = ⟨bytes, bytes.length, enc⟩ := by
  unfold Reader.openReaderWithEnc Opens
  rw [Bool.false_or]
  split_ifs with hlook
  · cases validateSealedSegment bytes with
    | error e => simp [hlook]
    | ok footer =>
      rw [Except.ok.injEq]
      exact ⟨fun h => ⟨fun _ => ⟨footer, rfl⟩, h.symm⟩, fun h => h.2.symm⟩
  · rw [Except.ok.injEq]
    exact ⟨fun h => ⟨fun hlook' => absurd hlook' hlook, h.symm⟩, fun h => h.2.symm⟩

theorem HasHeader.length_le (h : HasHeader bytes) : segmentHeaderSize ≤ bytes.length := by
  obtain ⟨header, hdecode⟩ := h
  by_contra hlt
  have hshort : (bytes.take segmentHeaderSize).length < segmentHeaderSize := by
    rw [length_take]
    omega
  unfold SegmentHeader.decode at hdecode
  rw [if_pos hshort] at hdecode
  simp at hdecode

theorem HasHeader.append (h : HasHeader bytes) (more : List UInt8) : HasHeader (bytes ++ more) := by
  have hlen := h.length_le
  obtain ⟨header, hdecode⟩ := h
  refine ⟨header, ?_⟩
  rw [take_append_of_le_length hlen]
  exact hdecode

theorem hasHeader_new (segID : SegmentID) (segmentClass : SegmentClass) :
    HasHeader (newSegmentHeader segID segmentClass).encode := by
  refine ⟨newSegmentHeader segID segmentClass, ?_⟩
  rw [take_of_length_le (by simp)]
  exact SegmentHeader.decode_encode _ rfl rfl

variable {footer : SegmentFooter} {k : Key}

/-- **A sealed segment opens.** -/
theorem opens_sealed {a : Allocator} {now : UInt64} (hheader : HasHeader file)
    (h : Store.checkFooter file offset (Store.sealFooter a now) = .ok footer) :
    Opens (file ++ footer.encode) := by
  intro _
  obtain ⟨hfooter, hcrc⟩ := checkFooter_ok h
  obtain ⟨header, hdecode⟩ := hheader.append footer.encode
  have hlen := hheader.length_le
  have hsize : segmentFooterSize = 65 := rfl
  have hfooterLen := footer.length_encode
  have htotal : (file ++ footer.encode).length = file.length + segmentFooterSize := by
    rw [length_append, hfooterLen]
  have hmagic : footer.magic = segmentMagic := by rw [hfooter]; rfl
  have hversion : footer.version = formatVersion := by rw [hfooter]; rfl
  -- The checksum field is not among the bytes the checksum covers.
  have htake : footer.encode.take segmentFooterCRCOffset =
      (Store.sealFooter a now).encode.take segmentFooterCRCOffset := by
    have hcut : segmentFooterCRCOffset = 61 := rfl
    unfold SegmentFooter.encode
    rw [hcut, take_layout footer.width_checkedFields,
      take_layout (Store.sealFooter a now).width_checkedFields, hfooter]
    rfl
  refine ⟨footer, ?_⟩
  unfold validateSealedSegment
  rw [if_neg (by omega), htotal, Nat.add_sub_cancel]
  dsimp only
  rw [drop_left, hdecode]
  refine bind_eq_ok.mpr ⟨header, rfl, bind_eq_ok.mpr ⟨footer,
    SegmentFooter.decode_encode footer hmagic hversion, ?_⟩⟩
  rw [if_neg hcrc]
  rw [sealedSegmentCRC_eq footer.encode footer hlen, htake]
  have hsame : crc32c (file ++ (Store.sealFooter a now).encode.take segmentFooterCRCOffset) =
      footer.segmentCRC := by
    rw [hfooter]
  rw [hsame]
  refine bind_eq_ok.mpr ⟨footer.segmentCRC, rfl, ?_⟩
  rw [if_neg (by simp)]

/-- With a commit behind it, the end of the record stands where the magic and the version of a
footer would, and looks like them. -/
def PendingWrite.endsLikeFooter (pw : PendingWrite) : Bool :=
  u32At pw.bytes (pw.bytes.length + batchCommitSize - segmentFooterSize) == segmentMagic &&
    u8At pw.bytes (pw.bytes.length + batchCommitSize - segmentFooterSize + 4) == formatVersion

/-- A segment that ends with a record and its commit. -/
theorem opens_committed {commit : List UInt8} {pw : PendingWrite}
    (hcommit : commit.length = batchCommitSize) (hpw : pw.endsLikeFooter = false) :
    Opens (file ++ (pw.bytes ++ commit)) := by
  have hbytes : recordHeaderSize ≤ pw.bytes.length := by
    rw [PendingWrite.length_bytes]
    omega
  have hsizes : recordHeaderSize = 55 ∧ batchCommitSize = 42 ∧ segmentFooterSize = 65 :=
    ⟨rfl, rfl, rfl⟩
  have hat : (file ++ (pw.bytes ++ commit)).length - segmentFooterSize =
      file.length + (pw.bytes.length + batchCommitSize - segmentFooterSize) := by
    rw [length_append, length_append, hcommit]
    omega
  intro hlook
  unfold hasEncodedSegmentFooter at hlook
  rw [hat, u32At_append_right, Nat.add_assoc, u8At_append_right,
    u32At_append_left _ _ (by omega), u8At_append_left _ _ (by omega)] at hlook
  unfold PendingWrite.endsLikeFooter at hpw
  rw [Bool.and_assoc, hpw, Bool.and_false] at hlook
  simp at hlook

/-! ### Segments that grow -/

/-- Every file that opens is there later on, perhaps longer, and opens. -/
def Store.Grows (s s' : Store) : Prop :=
  ∀ id file, s.files.lookup id = some file → Opens file.bytes →
    ∃ file', s'.files.lookup id = some file' ∧ file.bytes <+: file'.bytes ∧ Opens file'.bytes

/-- The store can append to its active segment. -/
structure Store.Appending (s : Store) : Prop where
  nextSeg : s.alloc.segmentID ≤ s.nextSeg
  fresh : ∀ id, s.nextSeg < id → s.files.lookup id = none
  active : ∃ file, s.files.lookup s.alloc.segmentID = some file ∧
    s.alloc.offset = file.bytes.length ∧ HasHeader file.bytes

namespace Store

theorem Grows.refl (s : Store) : s.Grows s := by
  intro id file hfile hopens
  exact ⟨file, hfile, prefix_rfl, hopens⟩

variable {s' : Store}

theorem Grows.trans {s'' : Store} (h : s.Grows s') (h' : s'.Grows s'') : s.Grows s'' := by
  intro id file hfile hopens
  obtain ⟨file', hfile', hpre, hopens'⟩ := h id file hfile hopens
  obtain ⟨file'', hfile'', hpre', hopens''⟩ := h' id file' hfile' hopens'
  exact ⟨file'', hfile'', hpre.trans hpre', hopens''⟩

theorem Grows.of_files (h : s'.files = s.files) : s.Grows s' := by
  intro id file hfile hopens
  exact ⟨file, h ▸ hfile, prefix_rfl, hopens⟩

variable {v : Value} {answer : List UInt8 × UInt32} {fault : Fault} {now : UInt64}
  {pw : PendingWrite}

/-- When a whole extent can be read at a location, and what one gets. -/
theorem readLocated_eq_ok :
    s.readLocated c v 0 0 = .ok answer ↔ v.state ≠ .tombstoned ∧ v.state ≠ .corrupt ∧
      ∃ file data, s.files.lookup v.segmentID = some file ∧ Opens file.bytes ∧
        Reader.readPayloadFrames c ⟨file.bytes, file.bytes.length, c.registry⟩ v.offset
          v.storedLen v.logicalLen = .ok data ∧ answer = (data, v.checksum) := by
  unfold readLocated openSegment
  by_cases htomb : v.state = .tombstoned
  · simp [htomb]
  by_cases hcorrupt : v.state = .corrupt
  · simp [hcorrupt]
  rw [if_neg htomb, if_neg hcorrupt]
  cases hfile : s.files.lookup v.segmentID with
  | none => simp
  | some file =>
    dsimp only
    cases hopen : Reader.openReaderWithEnc false c.registry file.bytes with
    | error e =>
      have hnot : ¬ Opens file.bytes := by
        intro hopens
        rw [openReader_iff.mpr ⟨hopens, rfl⟩] at hopen
        simp at hopen
      simp [hnot]
    | ok rd =>
      obtain ⟨hopens, rfl⟩ := openReader_iff.mp hopen
      dsimp only
      rw [if_neg (by decide)]
      cases hread : Reader.readPayloadFrames c
          ⟨file.bytes, file.bytes.length, c.registry⟩ v.offset v.storedLen
          v.logicalLen with
      | error e => simp [Except.map, hread]
      | ok data => simp [Except.map, htomb, hcorrupt, hopens, hread, eq_comm]

/-- **What can be read at a location can be read there later on.** -/
theorem Grows.readLocated (h : s.Grows s') (hread : s.readLocated c v 0 0 = .ok answer) :
    s'.readLocated c v 0 0 = .ok answer := by
  obtain ⟨htomb, hcorrupt, file, data, hfile, hopens, hdata, hanswer⟩ := readLocated_eq_ok.mp hread
  obtain ⟨file', hfile', hpre, hopens'⟩ := h _ file hfile hopens
  have hext : Reader.Extends ⟨file.bytes, file.bytes.length, c.registry⟩
      ⟨file'.bytes, file'.bytes.length, c.registry⟩ := ⟨hpre, hpre.length_le, rfl⟩
  exact readLocated_eq_ok.mpr ⟨htomb, hcorrupt, file', data, hfile', hopens',
    hext.readPayloadFrames hdata, hanswer⟩

/-- Reserving, and sealing the active segment where it is full. -/
theorem reserveOne_appending {fault' : Fault} {s1 : Store} {off : Nat} (h : s.Appending)
    (hres : reserveOne fault now pw s = (.ok off, fault', s1)) :
    s.Grows s1 ∧ s1.alloc.segmentID ≤ s1.nextSeg ∧
      (∀ id, s1.nextSeg < id → s1.files.lookup id = none) ∧
      s1.alloc.offset = off + pw.framing.toNat ∧
      ∃ file, s1.files.lookup s1.alloc.segmentID = some file ∧ off = file.bytes.length ∧
        HasHeader file.bytes := by
  obtain ⟨file, hfile, hoff, hheader⟩ := h.active
  unfold reserveOne at hres
  split at hres
  · rename_i n alloc hok
    obtain ⟨rfl, -, hadv⟩ := reserve_eq_ok hok
    obtain ⟨hoffset, hrest⟩ := Prod.mk.inj hres
    cases hrest
    cases hoffset
    refine ⟨.of_files rfl, ?_, h.fresh, hadv.offset, file, ?_, hoff, hheader⟩
    · exact hadv.segmentID.le.trans h.nextSeg
    · exact (congrArg s.files.lookup hadv.segmentID).trans hfile
  · rcases sealActiveLocked_cases fault now hfile hoff (h.fresh _ (Nat.lt_succ_self _)) with
      ⟨e, -, hseal⟩ | ⟨footer, r, fault'', s'', hseal, hcheck, hseals⟩ <;> rw [hseal] at hres
    · simp at hres
    cases hseals with
    | footer | header => simp at hres
    | @done files _ hdir =>
      dsimp only at hres
      split at hres
      · rename_i n alloc hok
        obtain ⟨rfl, -, hadv⟩ := reserve_eq_ok hok
        obtain ⟨hoffset, hrest⟩ := Prod.mk.inj hres
        cases hrest
        cases hoffset
        have hactive : s.alloc.segmentID ≤ s.nextSeg := h.nextSeg
        refine ⟨?_, hadv.segmentID.le, ?_, hadv.offset, _,
          (congrArg files.lookup hadv.segmentID).trans hdir.new, ?_, hasHeader_new _ _⟩
        · intro id old hold hopens
          by_cases hid : id = s.alloc.segmentID
          · subst hid
            obtain rfl : old = file := Option.some.inj (hold.symm.trans hfile)
            exact ⟨_, hdir.old, prefix_append _ _, opens_sealed hheader hcheck⟩
          · have hne : id ≠ s.nextSeg + 1 := by
              intro hid
              rw [hid, h.fresh _ (Nat.lt_succ_self _)] at hold
              simp at hold
            exact ⟨old, (hdir.others id hid hne).trans hold, prefix_rfl, hopens⟩
        · intro id hid
          have hlt : s.nextSeg + 1 < id := hid
          have hold : id ≠ s.alloc.segmentID := by
            rintro rfl
            exact absurd (hactive.trans_lt (Nat.lt_succ_self _)) (Nat.lt_asymm hlt)
          exact (hdir.others id hold (Nat.ne_of_gt hlt)).trans (h.fresh id (Nat.lt_of_succ_lt hlt))
        · exact (SegmentHeader.length_encode _).symm
      · simp at hres
  · simp at hres

/-- Where an append puts its record, and what it does to the files. -/
theorem appendRecord_files {loc : Reloc} (h : s.Appending)
    (hframing : pw.framing.toNat = pw.bytes.length) (hfooter : pw.endsLikeFooter = false)
    (happ : appendRecord fault now pw s = (.ok loc, s')) :
    s'.Appending ∧ s.Grows s' ∧ s'.locCache = s.locCache ∧
      ∃ pre post, loc = ⟨pw.key, loc.segmentID, pre.length, pw.header.storedLen,
          pw.header.logicalLen, pw.header.payloadChecksum⟩ ∧
        segmentHeaderSize ≤ pre.length ∧ Opens (pre ++ (pw.bytes ++ post)) ∧
        ∃ synced, s'.files.lookup loc.segmentID = some ⟨pre ++ (pw.bytes ++ post), synced⟩ := by
  have hunseen := (reserveOne_forward fault now pw h.nextSeg).2
  unfold appendRecord at happ
  split at happ
  · simp at happ
  rename_i off fault' s1 hres
  rw [hres] at hunseen
  obtain ⟨hgrows, hnext, hfresh, hend, file, hfile, hoff, hheader⟩ := reserveOne_appending h hres
  split at happ
  · simp at happ
  rename_i commitOff alloc hcommit
  have halloc := reserveCommit_eq_ok hcommit
  dsimp only at happ
  split at happ
  · simp at happ
  rename_i fault'' files hrun
  obtain ⟨hloc, rfl⟩ := Prod.mk.inj happ
  cases hloc
  have hseg : alloc.segmentID = s1.alloc.segmentID := by rw [halloc]
  -- The record and its commit stand at the end of the file.
  obtain ⟨commit, hcommitLen, hlookup, hothers⟩ : ∃ commit : List UInt8,
      commit.length = batchCommitSize ∧
      files.lookup s1.alloc.segmentID = some ⟨file.bytes ++ (pw.bytes ++ commit),
        file.bytes ++ (pw.bytes ++ commit)⟩ ∧
      ∀ id ≠ s1.alloc.segmentID, files.lookup id = s1.files.lookup id := by
    rw [hseg, hframing, hoff] at hrun
    generalize batchCommit _ _ _ = commit at hrun
    have hbars : ∀ op ∈ [FileOp.sync s1.alloc.segmentID],
        op = .stage ∨ op = .sync s1.alloc.segmentID := by simp
    obtain ⟨t, file', htorn, hok, -⟩ := runOps_torn
      (.write pw.bytes (.write commit.encode (.nil _))) hbars fault' hfile
    rw [append_nil] at htorn hok
    simp only [cons_append, nil_append, hrun] at htorn hok
    obtain ⟨rfl, hsynced⟩ := hok trivial
    exact ⟨_, BatchCommit.length_encode _, htorn.durable (hsynced mem_cons_self),
      htorn.others⟩
  have hopens : Opens (file.bytes ++ (pw.bytes ++ commit)) := opens_committed hcommitLen hfooter
  obtain ⟨hallocEnd, hnextEnd, hfilesEnd, hcacheEnd⟩ := published_kept pw.key
    ⟨s1.alloc.segmentID, off, pw.header.storedLen, pw.header.logicalLen, .durable,
      pw.header.payloadChecksum⟩
    s1.streamSeq (s1.streamSeq + 1) { s1 with alloc, streamSeq := s1.streamSeq + 1, files }
  have hsegEnd := (congrArg Allocator.segmentID hallocEnd).trans hseg
  have hat : ∀ id, _ = files.lookup id := fun id => congrArg (AList.lookup id) hfilesEnd
  let file' : File := ⟨file.bytes ++ (pw.bytes ++ commit), file.bytes ++ (pw.bytes ++ commit)⟩
  refine ⟨⟨?_, ?_, file', ?_, ?_, hheader.append _⟩, ?_, ?_, file.bytes, commit, ?_,
    hheader.length_le, hopens, file'.synced, ?_⟩
  · exact hsegEnd.le.trans (hnext.trans hnextEnd.ge)
  · intro id hid
    have hlt : s1.nextSeg < id := lt_of_eq_of_lt hnextEnd.symm hid
    refine (hat id).trans ?_
    exact (hothers id (Nat.ne_of_gt (hnext.trans_lt hlt))).trans (hfresh id hlt)
  · exact (hat _).trans ((congrArg files.lookup hsegEnd).trans hlookup)
  · refine (congrArg Allocator.offset hallocEnd).trans ?_
    show alloc.offset = _
    rw [halloc, length_append, length_append, hcommitLen, ← hframing]
    show s1.alloc.offset + batchCommitSize = _
    omega
  · refine hgrows.trans ?_
    intro id old hold hopensOld
    by_cases hid : id = s1.alloc.segmentID
    · subst hid
      obtain rfl : old = file := Option.some.inj (hold.symm.trans hfile)
      exact ⟨_, (hat _).trans hlookup, prefix_append _ _, hopens⟩
    · exact ⟨old, (hat id).trans ((hothers id hid).trans hold), prefix_rfl, hopensOld⟩
  · exact hcacheEnd.trans hunseen.locCache
  · rw [hoff]
  · exact (hat _).trans hlookup

end Store

/-! ### Copying -/

/-- The active key has a number, and its number resolves to it. -/
def FrameCodec.Resolves (c : FrameCodec) : Prop :=
  ∀ keyID key, c.activeKey = some (.ok (keyID, key)) →
    keyID ≠ 0 ∧ c.resolveNumeric keyID = .ok key

theorem FrameCodec.Resolves.resolveKey (h : c.Resolves) {size : Nat}
    {key : UInt64 × Option (List UInt8)} (hkey : encKey c = .ok key) :
    Reader.resolveKey ⟨bytes, size, c.registry⟩ key.1 = .ok key.2 := by
  unfold encKey at hkey
  unfold Reader.resolveKey FrameCodec.registry
  split at hkey
  · cases hkey
    exact if_pos rfl
  · simp at hkey
  rename_i keyID k hactive
  cases hkey
  obtain ⟨hne, hresolve⟩ := h keyID k hactive
  rw [if_neg hne, hactive, Option.map_some]
  dsimp only
  rw [hresolve]
  rfl

/-- The record the worker makes of a scanned one fits the format, and does not make its segment
look sealed. -/
structure Copyable (c : FrameCodec) (env : CompactEnv) (i : Nat) (r : ScannedRecord) : Prop where
  frames : frameCount defaultFrameSize r.stored < 2 ^ 16
  length : ∀ pw, Store.buildAppend c (env.nonce i) r.key r.stored r.codec = .ok pw →
    pw.bytes.length < 2 ^ 32
  footer : ∀ pw, Store.buildAppend c (env.nonce i) r.key r.stored r.codec = .ok pw →
    pw.endsLikeFooter = false

section Copying

variable {env : CompactEnv} {srcID : SegmentID} {latest : ExtentID → Option Generation}

variable {i : Nat} {s' : Store}

/-- **A copied record** reads as the bytes the old one was stored as. -/
theorem appendScanned_reads (hc : c.Lossless) (hkeys : c.Resolves) {r : ScannedRecord}
    {loc : Reloc} (hcopy : Copyable c env i r) (h : s.Appending)
    (happ : appendScanned c env i r s = (.ok loc, s')) :
    s'.Appending ∧ s.Grows s' ∧ s'.locCache = s.locCache ∧
      loc.logicalLen = UInt32.ofNat r.stored.length ∧
      s'.readLocated c loc.value 0 0 = .ok (r.stored, crc32c r.stored) := by
  unfold appendScanned at happ
  split at happ
  · simp at happ
  rename_i pw hbuild
  have hlen := hcopy.length pw hbuild
  have hfooter := hcopy.footer pw hbuild
  unfold Store.buildAppend at hbuild
  split at hbuild
  · simp at hbuild
  rename_i key hkey
  obtain ⟨framed, hframed⟩ := buildPut_frames hbuild hcopy.frames hlen
  have hframing : pw.framing.toNat = pw.bytes.length := by
    rw [hframed.framing_eq, hframed.bytes_eq]
  obtain ⟨happending, hgrows, hcache, pre, post, hloc, hpre, hopens, synced, hfile⟩ :=
    appendRecord_files h hframing hfooter happ
  obtain ⟨stored, entries, hrecord, rfl⟩ := buildPut_ok hbuild
  have hstored : stored.length < 2 ^ 32 := by
    rw [PendingWrite.length_bytes] at hlen
    dsimp only at hlen
    omega
  refine ⟨happending, hgrows, hcache, ?_, ?_⟩
  · rw [hloc]
    rfl
  refine readLocated_eq_ok.mpr ⟨by simp [Reloc.value], by simp [Reloc.value], _,
    r.stored, hfile, hopens, ?_, ?_⟩
  · rw [hloc]
    exact (hasRecord_of_build hc hrecord hcopy.frames hstored (hkeys.resolveKey hkey) hpre
      rfl).readPayloadFrames
  · rw [hloc]
    rfl

/-- The first record of an extent the worker can ask about: the one it copies. -/
def firstCopied (env : CompactEnv) (k : Key) : List ScannedRecord → Nat → Option ScannedRecord
  | [], _ => none
  | r :: records, i =>
    if r.key = k ∧ env.statErr i = none then some r else firstCopied env k records (i + 1)

/-- What an extent that was moved reads as, and where it lies. -/
structure MovedAs (c : FrameCodec) (s : Store) (relocs : List Reloc) (k : Key)
    (bytes : List UInt8) : Prop where
  located : ∃ v, s.lookup k = some v ∧ v.state = .durable ∧
    v.logicalLen = UInt32.ofNat bytes.length ∧
    s.readLocated c v 0 0 = .ok (bytes, crc32c bytes)
  relocated : ∃ r ∈ relocs, r.key = k
  agree : ∀ r ∈ relocs, r.key = k → s.lookup k = some r.value

theorem copyable_tail {r : ScannedRecord} {records : List ScannedRecord}
    (h : ∀ j r', (r :: records)[j]? = some r' → Copyable c env (i + j) r') (j : Nat)
    (r' : ScannedRecord) (hget : records[j]? = some r') : Copyable c env (i + 1 + j) r' := by
  rw [show i + 1 + j = i + (j + 1) by omega]
  exact h (j + 1) r' (by simpa using hget)

/-- **A run of the loop** copies of every extent it moves the first record it can ask about. -/
theorem CopyRun.reads (hc : c.Lossless) (hkeys : c.Resolves) {records : List ScannedRecord}
    {relocs : List Reloc} (h : CopyRun c env srcID latest records i s relocs s')
    (hcopy : ∀ j r, records[j]? = some r → Copyable c env (i + j) r) (happ : s.Appending)
    (hsrc : srcID < s.alloc.segmentID) :
    s'.Appending ∧ s.Grows s' ∧ s'.locCache = s.locCache ∧ ∀ k, Met env srcID latest records i s k →
        ∃ r, firstCopied env k records i = some r ∧ MovedAs c s' relocs k r.stored := by
  induction h with
  | nil i s =>
    refine ⟨happ, .refl s, rfl, ?_⟩
    rintro k ⟨j, r, hget, -⟩
    simp at hget
  | @skip r records i s s' relocs hdead hrest ih =>
    obtain ⟨happ', hgrows, hcache, hmoved⟩ := ih (copyable_tail hcopy) happ hsrc
    refine ⟨happ', hgrows, hcache, ?_⟩
    intro k hmet
    rcases met_cons.mp hmet with ⟨rfl, hlive⟩ | hmet'
    · exact absurd hlive hdead
    obtain ⟨r', hfirst, hmoved'⟩ := hmoved k hmet'
    refine ⟨r', ?_, hmoved'⟩
    have hnot : ¬ (r.key = k ∧ env.statErr i = none) := by
      rintro ⟨rfl, hstat⟩
      obtain ⟨j, r'', -, -, hlatest, -, hlive⟩ := hmet'
      exact hdead ⟨hlatest, hstat, hlive⟩
    rw [firstCopied, if_neg hnot]
    exact hfirst
  | @copy r records i s s1 s' loc relocs hlive hok hrest ih =>
    have happends : s.Appends r.key (appendScanned c env i r s) :=
      appendScanned_appends i r happ.nextSeg
    rw [hok] at happends
    obtain ⟨hkey, hlook, hseg⟩ := happends.moved loc rfl
    obtain ⟨happ1, hgrows1, hcache1, hlen, hread⟩ :=
      appendScanned_reads hc hkeys (hcopy 0 r rfl) happ hok
    have hsrc1 : srcID < s1.alloc.segmentID := hsrc.trans_le happends.forward.segmentID_le
    obtain ⟨happ', hgrows, hcache, hmoved⟩ := ih (copyable_tail hcopy) happ1 hsrc1
    refine ⟨happ', hgrows1.trans hgrows, hcache.trans hcache1, ?_⟩
    intro k hmet
    by_cases hk : k = r.key
    · -- The extent lies elsewhere now, so the rest of the run leaves it alone.
      subst hk
      have hnot : ¬ Met env srcID latest records (i + 1) s1 r.key :=
        not_met hlook (hsrc.trans_le hseg)
      obtain ⟨-, hrestLook, -⟩ := hrest.lookup happ1.nextSeg hsrc1
      obtain ⟨hkeep, hnone⟩ := hrestLook r.key hnot
      refine ⟨r, ?_, ⟨loc.value, hkeep.trans hlook, rfl, hlen, hgrows.readLocated hread⟩,
        ⟨loc, .head _, hkey⟩, ?_⟩
      · rw [firstCopied, if_pos ⟨rfl, hlive.2.1⟩]
      · intro r' hr' hkey'
        rcases mem_cons.mp hr' with rfl | hr'
        · exact hkeep.trans hlook
        · exact absurd hkey' (hnone r' hr')
    · have hmet1 : Met env srcID latest records (i + 1) s1 k := by
        rcases met_cons.mp hmet with ⟨hr, -⟩ | hmet'
        · exact absurd hr.symm hk
        · exact (met_congr (happends.others k hk)).mpr hmet'
      obtain ⟨r', hfirst, hmovedK⟩ := hmoved k hmet1
      obtain ⟨r'', hr'', hkey''⟩ := hmovedK.relocated
      refine ⟨r', ?_, hmovedK.located, ⟨r'', .tail _ hr'', hkey''⟩, ?_⟩
      · rw [firstCopied, if_neg (fun hboth => hk hboth.1.symm)]
        exact hfirst
      · intro x hx hxkey
        rcases mem_cons.mp hx with rfl | hx
        · exact absurd (hxkey.symm.trans hkey) hk
        · exact hmovedK.agree x hx hxkey

end Copying

/-! ### Repointing and removing -/

theorem relocate_files (relocs : List Reloc) :
    ∀ s : Store, (s.relocate relocs).files = s.files := by
  induction relocs with
  | nil =>
    intro s
    rfl
  | cons r relocs ih =>
    intro s
    rcases relocate_cons s r relocs with ⟨hskip, -⟩ | hput
    · rw [hskip, ih]
    · rw [hput, ih]
      rfl

/-- Where nothing is tombstoned, the cache forgets what is repointed and nothing else. -/
theorem locCache_relocate (relocs : List Reloc) :
    ∀ s : Store, (∀ r ∈ relocs, ∀ v, s.lookup r.key = some v → v.state ≠ .tombstoned) →
      ∀ k, ((∃ r ∈ relocs, r.key = k) → (s.relocate relocs).locCache.lookup k = none) ∧
        ((∀ r ∈ relocs, r.key ≠ k) →
          (s.relocate relocs).locCache.lookup k = s.locCache.lookup k) := by
  induction relocs with
  | nil =>
    intro s _ k
    refine ⟨?_, fun _ => rfl⟩
    rintro ⟨r, hr, -⟩
    simp at hr
  | cons r relocs ih =>
    intro s halive k
    rcases relocate_cons s r relocs with ⟨-, v, hv, htomb⟩ | hput
    · exact absurd htomb (halive r (.head _) v hv)
    have halive' : ∀ r' ∈ relocs, ∀ v, (s.repointed r).lookup r'.key = some v →
        v.state ≠ .tombstoned := by
      intro r' hr' v hv
      rw [lookup_repointed] at hv
      split_ifs at hv
      · cases hv
        simp [Reloc.value]
      · exact halive r' (.tail _ hr') v hv
    obtain ⟨hgone, hkept⟩ := ih (s.repointed r) halive' k
    rw [hput]
    constructor
    · rintro ⟨r', hr', hkey⟩
      by_cases hrest : ∃ r'' ∈ relocs, r''.key = k
      · exact hgone hrest
      · have hno : ∀ r'' ∈ relocs, r''.key ≠ k := fun r'' hr'' he => hrest ⟨r'', hr'', he⟩
        rcases mem_cons.mp hr' with rfl | hr'
        · rw [hkept hno, ← hkey]
          exact lookup_erase _ _
        · exact absurd hkey (hno r' hr')
    · intro hno
      rw [hkept fun r' hr' => hno r' (.tail _ hr')]
      exact lookup_erase_ne (hno r (.head _)).symm

theorem cachedLookup_eq_ok {v : Value} :
    (s.cachedLookup k).1 = .ok v ↔ (s.locCache.lookup k).or (s.lookup k) = some v := by
  unfold Store.cachedLookup
  cases s.locCache.lookup k with
  | some w => simp
  | none =>
    cases s.lookup k with
    | none | some w => simp

/-- A read finds a location and reads there. -/
theorem read_eq_ok {answer : List UInt8 × UInt32} : (s.read c k 0 0).1 = .ok answer ↔
      ∃ v, (s.cachedLookup k).1 = .ok v ∧ s.readLocated c v 0 0 = .ok answer := by
  unfold Store.read Store.cachedLookup
  cases s.locCache.lookup k with
  | some v => simp
  | none =>
    cases s.lookup k with
    | none => simp
    | some v =>
      rw [readLocated_eq_ok]
      simp only [Except.ok.injEq, exists_eq_left']
      rw [readLocated_eq_ok]

/-- Any number of records is copied before the file goes. -/
structure Compacted (c : FrameCodec) (env : CompactEnv) (srcID : SegmentID) (s s' : Store)
    (file : File) : Prop where
  unmoved : ∀ k, ¬ Met env srcID (latestGenerations (env.listed s))
    (scanSegmentRecords file.bytes) 0 s k → ∀ v,
      (s'.cachedLookup k).1 = .ok v ↔ (s.cachedLookup k).1 = .ok v
  moved : ∀ k, Met env srcID (latestGenerations (env.listed s))
    (scanSegmentRecords file.bytes) 0 s k →
      ∃ r v, firstCopied env k (scanSegmentRecords file.bytes) 0 = some r ∧
        (s'.cachedLookup k).1 = .ok v ∧ v.logicalLen = UInt32.ofNat r.stored.length ∧
        (s'.read c k 0 0).1 = .ok (r.stored, crc32c r.stored)
  elsewhere : ∀ v answer, v.segmentID ≠ srcID → s.readLocated c v 0 0 = .ok answer →
    s'.readLocated c v 0 0 = .ok answer
  gone : ∀ v answer, v.segmentID = srcID → s'.readLocated c v 0 0 ≠ .ok answer

theorem compacted_of_run {env : CompactEnv} {srcID : SegmentID} {s1 : Store} {file : File}
    {relocs : List Reloc} (hc : c.Lossless) (hkeys : c.Resolves) (happ : s.Appending)
    (hsealed : srcID < s.alloc.segmentID)
    (hcopy : ∀ i r, (scanSegmentRecords file.bytes)[i]? = some r → Copyable c env i r)
    (hrun : CopyRun c env srcID (latestGenerations (env.listed s))
      (scanSegmentRecords file.bytes) 0 s relocs s1) : Compacted c env srcID s
      { s1.relocate relocs with files := (s1.relocate relocs).files.erase srcID } file := by
  obtain ⟨-, hkept, -⟩ := hrun.lookup happ.nextSeg hsealed
  obtain ⟨-, hgrows, hcache, hmoved⟩ := hrun.reads hc hkeys
    (fun i r hget => (Nat.zero_add i).symm ▸ hcopy i r hget) happ hsealed
  let s' : Store := { s1.relocate relocs with files := (s1.relocate relocs).files.erase srcID }
  have hfiles : s'.files = s1.files.erase srcID :=
    congrArg (AList.erase srcID) (relocate_files relocs s1)
  -- What was repointed was met, and is not tombstoned.
  have hmetReloc : ∀ r ∈ relocs, Met env srcID (latestGenerations (env.listed s))
      (scanSegmentRecords file.bytes) 0 s r.key := by
    intro r hr
    by_contra hnot
    exact (hkept r.key hnot).2 r hr rfl
  have halive : ∀ r ∈ relocs, ∀ v, s1.lookup r.key = some v → v.state ≠ .tombstoned := by
    intro r hr v hv
    obtain ⟨_, -, hmove⟩ := hmoved r.key (hmetReloc r hr)
    rw [hmove.agree r hr rfl] at hv
    cases hv
    simp [Reloc.value]
  have hother : ∀ v answer, v.segmentID ≠ srcID → s1.readLocated c v 0 0 = .ok answer →
      s'.readLocated c v 0 0 = .ok answer := by
    intro v answer hne hread
    obtain ⟨htomb, hcorrupt, f, data, hf, hrest⟩ := readLocated_eq_ok.mp hread
    refine readLocated_eq_ok.mpr ⟨htomb, hcorrupt, f, data, ?_, hrest⟩
    rw [hfiles, lookup_erase_ne hne]
    exact hf
  refine ⟨?_, ?_, ?_, ?_⟩
  · intro k hnot v
    obtain ⟨hsame, hno⟩ := hkept k hnot
    have hlook : s'.lookup k = s.lookup k := by
      rcases lookup_relocate relocs s1 k with heq | ⟨r, hr, hkey, -⟩
      · exact heq.trans hsame
      · exact absurd hkey (hno r hr)
    have hcacheK : s'.locCache.lookup k = s.locCache.lookup k := by
      rw [← hcache]
      exact (locCache_relocate relocs s1 halive k).2 hno
    rw [cachedLookup_eq_ok, cachedLookup_eq_ok]
    show (s'.locCache.lookup k).or (s'.lookup k) = _ ↔ _
    rw [hlook, hcacheK]
  · intro k hmet
    obtain ⟨r, hfirst, hmove⟩ := hmoved k hmet
    obtain ⟨v, hv, hdurable, hlen, hread⟩ := hmove.located
    have hlook : s'.lookup k = some v := by
      rcases lookup_relocate relocs s1 k with heq | ⟨r', hr', hkey, hval⟩
      · exact heq.trans hv
      · rw [hmove.agree r' hr' hkey] at hv
        exact hval.trans hv
    have hcacheK : s'.locCache.lookup k = none :=
      (locCache_relocate relocs s1 halive k).1 hmove.relocated
    have hcached : (s'.cachedLookup k).1 = .ok v := by
      rw [cachedLookup_eq_ok, hcacheK, hlook]
      rfl
    have hne : v.segmentID ≠ srcID := by
      obtain ⟨w, hw, hlt⟩ := (hrun.lookup happ.nextSeg hsealed).2.2 k hmet
      obtain rfl : w = v := Option.some.inj (hw.symm.trans hv)
      exact Nat.ne_of_gt hlt
    exact ⟨r, v, hfirst, hcached, hlen, read_eq_ok.mpr ⟨v, hcached, hother v _ hne hread⟩⟩
  · intro v answer hne hread
    exact hother v answer hne (hgrows.readLocated hread)
  · intro v answer hsrc hread
    obtain ⟨-, -, f, -, hf, -⟩ := readLocated_eq_ok.mp hread
    have hnone : s'.files.lookup v.segmentID = none := by
      rw [hfiles, hsrc]
      exact lookup_erase _ _
    rw [show _ = _ from hnone] at hf
    simp at hf

/-- What a compaction needs of the store to keep every extent readable. -/
structure KeepsBytes (c : FrameCodec) (env : CompactEnv) (srcID : SegmentID) (s : Store)
    (file : File) : Prop where
  /-- Every extent of the segment can be moved. -/
  movable : ∀ k, s.LiesIn srcID k → Movable env s file k
  /-- The cache does not send readers to the segment for an extent that lies elsewhere. -/
  current : ∀ k v answer, (s.cachedLookup k).1 = .ok v → v.segmentID = srcID →
    (s.read c k 0 0).1 = .ok answer → s.LiesIn srcID k
  /-- The record that is copied is stored as the bytes one reads, under their checksum. -/
  plain : ∀ k r answer, s.LiesIn srcID k → (s.read c k 0 0).1 = .ok answer →
    firstCopied env k (scanSegmentRecords file.bytes) 0 = some r →
    answer = (r.stored, crc32c r.stored)

/--
**What a compaction leaves to read.**  A compaction of a sealed segment that removes
the file keeps the bytes, the length and the checksum of every extent one could read,
and leaves none in the segment, exactly if it can move every extent of the segment, no
stale location leads into it, and the records it copies are stored as their payload.
-/
theorem compactSegment_keeps (c : FrameCodec) (env : CompactEnv) {srcID : SegmentID}
    {s s' : Store} {n : Nat} (hc : c.Lossless) (hkeys : c.Resolves) (happ : s.Appending)
    (hsealed : srcID < s.alloc.segmentID) (hcopy : ∀ file i r, s.files.lookup srcID = some file →
      (scanSegmentRecords file.bytes)[i]? = some r → Copyable c env i r)
    (h : compactSegment c env srcID s = (.ok n, s')) :
    ((∀ k v answer, (s.cachedLookup k).1 = .ok v → (s.read c k 0 0).1 = .ok answer →
        (s'.read c k 0 0).1 = .ok answer ∧
          ∃ v', (s'.cachedLookup k).1 = .ok v' ∧ v'.logicalLen = v.logicalLen) ∧
      ∀ k, ¬ s'.LiesIn srcID k) ↔
      ∀ file, s.files.lookup srcID = some file → KeepsBytes c env srcID s file := by
  obtain ⟨file, relocs, s1, hfile, hrun, rfl⟩ := compactSegment_ok h
  have hdone := compacted_of_run hc hkeys happ hsealed (fun i r => hcopy file i r hfile) hrun
  have hlies := liesIn_relocate_iff happ.nextSeg hsealed hrun
  constructor
  · rintro ⟨hreads, hnone⟩ file' hfile'
    obtain rfl : file = file' := Option.some.inj (hfile.symm.trans hfile')
    have hmovable := hlies.mp hnone
    refine ⟨hmovable, ?_, ?_⟩
    · intro k v answer hv hsrc hread
      by_contra hnot
      have hunmet : ¬ Met env srcID (latestGenerations (env.listed s))
          (scanSegmentRecords file.bytes) 0 s k := by
        rintro ⟨-, -, -, -, -, -, w, hw, htomb, -, hin⟩
        exact hnot ⟨w, hw, htomb, hin⟩
      obtain ⟨w, hw, hlocated⟩ := read_eq_ok.mp (hreads k v answer hv hread).1
      obtain rfl : w = v := Except.ok.inj (((hdone.unmoved k hunmet w).mp hw).symm.trans hv)
      exact hdone.gone w answer hsrc hlocated
    · intro k r answer hin hread hfirst
      obtain ⟨v, hv, -⟩ := read_eq_ok.mp hread
      obtain ⟨r', -, hfirst', -, -, hread'⟩ :=
        hdone.moved k ((met_iff_movable hin).mpr (hmovable k hin))
      obtain rfl : r' = r := Option.some.inj (hfirst'.symm.trans hfirst)
      exact Except.ok.inj ((hreads k v answer hv hread).1.symm.trans hread')
  · intro hkeeps
    obtain ⟨hmovable, hcurrent, hplain⟩ := hkeeps file hfile
    refine ⟨?_, hlies.mpr hmovable⟩
    intro k v answer hv hread
    obtain ⟨w, hw, hlocated⟩ := read_eq_ok.mp hread
    obtain rfl : w = v := Except.ok.inj (hw.symm.trans hv)
    by_cases hmet : Met env srcID (latestGenerations (env.listed s))
        (scanSegmentRecords file.bytes) 0 s k
    · have hin : s.LiesIn srcID k := by
        obtain ⟨-, -, -, -, -, -, x, hx, htomb, -, hsrc⟩ := hmet
        exact ⟨x, hx, htomb, hsrc⟩
      obtain ⟨r, v', hfirst, hv', hlen, hread'⟩ := hdone.moved k hmet
      obtain rfl := hplain k r answer hin hread hfirst
      refine ⟨hread', v', hv', ?_⟩
      -- The length of what was read is the length of its location.
      obtain ⟨-, -, f, data, -, -, hdata, hanswer⟩ := readLocated_eq_ok.mp hlocated
      obtain rfl : r.stored = data := congrArg Prod.fst hanswer
      rw [hlen, ← length_of_readPayloadFrames hdata, UInt32.ofNat_toNat]
    · have hne : w.segmentID ≠ srcID := by
        intro hsrc
        have hin := hcurrent k w answer hw hsrc hread
        exact hmet ((met_iff_movable hin).mpr (hmovable k hin))
      have hsame := (hdone.unmoved k hmet w).mpr hw
      exact ⟨read_eq_ok.mpr ⟨w, hsame, hdone.elsewhere w answer hne hlocated⟩, w, hsame, rfl⟩

namespace SampleCompaction

/-- What the scan finds in the first segment of the sample. -/
def scanned : ScannedRecord := ⟨7, 1, 22, 1, 1, .none, [7]⟩

theorem scan_store {file : File} (h : store.files.lookup 1 = some file) :
    scanSegmentRecords file.bytes = [scanned] := by
  have hscan : (store.files.lookup 1).map (fun f => scanSegmentRecords f.bytes) =
      some [scanned] := by decide +kernel
  rw [h] at hscan
  exact Option.some.inj hscan

theorem copyable_scanned : Copyable SampleMachine.codec (env none) 0 scanned := by
  have hbuild : Store.buildAppend SampleMachine.codec (fun _ => []) (7, 1) [7] .none =
      .ok (SampleCheckpoint.record 7) := by decide +kernel
  refine ⟨by decide, ?_, ?_⟩
  · intro pw hpw
    obtain rfl := Except.ok.inj (hbuild.symm.trans hpw)
    decide +kernel
  · intro pw hpw
    obtain rfl := Except.ok.inj (hbuild.symm.trans hpw)
    decide +kernel

theorem appending_store : store.Appending := by
  have hactive : store.files.lookup store.alloc.segmentID =
      some ⟨(newSegmentHeader 2 .data).encode, []⟩ := by decide +kernel
  refine ⟨by decide +kernel, ?_, _, hactive, by decide +kernel, hasHeader_new 2 .data⟩
  intro id hid
  have hkeys : store.files.keys = [2, 1] := by decide +kernel
  have hnext : store.nextSeg = 2 := by decide +kernel
  rw [hnext] at hid
  rw [AList.lookup_eq_none, AList.mem_keys, hkeys]
  simp only [mem_cons, not_mem_nil, or_false]
  rintro (rfl | rfl)
  · exact absurd hid (by decide)
  · exact absurd hid (by decide)

/-- The sample, written under the cipher. -/
def encrypted : Store :=
  match Store.buildWrite SampleReader.cipher (fun _ => []) (7, 1) [7] with
  | .error _ => SampleMachine.emptyStore
  | .ok pw =>
    (Store.sealActiveLocked none 0
      (Store.commitBatch none 0 [pw] SampleMachine.emptyStore).2).2.2

end SampleCompaction

open SampleCompaction in
theorem compactSegment_keeps_plain :
    ∃ s', compactSegment SampleMachine.codec (env none) 1 store = (.ok 1, s') ∧
      (((∀ k v answer, (store.cachedLookup k).1 = .ok v →
          (store.read SampleMachine.codec k 0 0).1 = .ok answer →
          (s'.read SampleMachine.codec k 0 0).1 = .ok answer ∧
            ∃ v', (s'.cachedLookup k).1 = .ok v' ∧ v'.logicalLen = v.logicalLen) ∧
        ∀ k, ¬ s'.LiesIn 1 k) ↔ ∀ file, store.files.lookup 1 = some file →
          KeepsBytes SampleMachine.codec (env none) 1 store file) := by
  have hok : (compactSegment SampleMachine.codec (env none) 1 store).1 = .ok 1 := by decide +kernel
  rcases h : compactSegment SampleMachine.codec (env none) 1 store with ⟨r, s'⟩
  rw [h] at hok
  obtain rfl : r = .ok 1 := hok
  refine ⟨s', rfl, compactSegment_keeps _ _ ⟨fun _ => rfl, fun _ _ _ _ h => h.symm⟩ ?_
    appending_store (by decide +kernel) ?_ h⟩
  · intro keyID key hkey
    simp [SampleMachine.codec] at hkey
  intro file i r hfile hget
  rw [scan_store hfile] at hget
  cases i with
  | zero =>
    cases hget
    exact copyable_scanned
  | succ i => simp at hget

open SampleCompaction SampleReader in
/-- An encrypted extent reads as its ciphertext once it is compacted. -/
theorem compactSegment_keeps_ciphertext :
    (encrypted.read cipher (7, 1) 0 0).1 = .ok ([7], crc32c [7]) ∧
      (compactSegment cipher (env none) 1 encrypted).1 = .ok 1 ∧
      ((compactSegment cipher (env none) 1 encrypted).2.read cipher (7, 1) 0 0).1 =
        .ok ([9, 7], crc32c [9, 7]) := by
  refine ⟨by decide +kernel, by decide +kernel, by decide +kernel⟩

end Nufs.Storage
