/-
The on-disk formats read back what was written.

Every fixed-size structure is a layout of big-endian fields, so each round trip
is the same argument: the bytes a checksum covers are the fields before it, and
every field is found at its offset.
-/
import Nufs.Storage.Record
import Nufs.Storage.Journal
import Nufs.Storage.SegmentFile

namespace Nufs.Storage

open Layout List

/-! ### Record headers -/

namespace RecordHeader

theorem width_checkedFields (h : RecordHeader) : width h.checkedFields = 47 := by
  simp [checkedFields]

@[simp] theorem length_encode (h : RecordHeader) : h.encode.length = recordHeaderSize := by
  simp [encode, length_layout, width_checkedFields, recordHeaderSize, -layout_cons]

theorem take_encode (h : RecordHeader) : h.encode.take 47 = layout h.checkedFields :=
  take_layout h.width_checkedFields _

theorem decode_encode (h : RecordHeader) (hm : h.magic = recordMagic)
    (hv : h.version = formatVersion) : decode h.encode = .ok h := by
  have hlen : ¬ h.encode.length < recordHeaderSize := by simp
  have hcrc : u32At h.encode 47 = crc32c (h.encode.take 47) := by
    rw [take_encode]
    exact u32At_layout rfl
  have hmagic : u32At h.encode 0 = h.magic := u32At_layout rfl
  have hversion : u8At h.encode 4 = h.version := u8At_layout rfl
  have hop : u8At h.encode 5 = h.op.toByte := u8At_layout rfl
  have hcodec : u8At h.encode 30 = h.codec.toByte := u8At_layout rfl
  have h6 : u64At h.encode 6 = h.extentID := u64At_layout rfl
  have h14 : u64At h.encode 14 = h.generation := u64At_layout rfl
  have h22 : u32At h.encode 22 = h.logicalLen := u32At_layout rfl
  have h26 : u32At h.encode 26 = h.storedLen := u32At_layout rfl
  have h31 : u64At h.encode 31 = h.keyID := u64At_layout rfl
  have h39 : u16At h.encode 39 = h.frameSize := u16At_layout rfl
  have h41 : u16At h.encode 41 = h.frameCount := u16At_layout rfl
  have h43 : u32At h.encode 43 = h.payloadChecksum := u32At_layout rfl
  have h51 : u32At h.encode 51 = h.frameIndexCRC := u32At_layout rfl
  simp only [decode, if_neg hlen, hmagic, hversion, hcrc, hop, hcodec, hm, hv,
    RecordOp.ofByte_toByte, CompressionCodec.ofByte_toByte, ne_eq, not_true_eq_false, if_false,
    h6, h14, h22, h26, h31, h39, h41, h43, h51]
  rw [← hm, ← hv]

end RecordHeader

/-! ### Frame index entries and trailers -/

namespace FrameIndexEntry

@[simp] theorem length_encode (e : FrameIndexEntry) : e.encode.length = frameIndexEntrySize := by
  simp [encode, length_layout, frameIndexEntrySize, -layout_cons]

/-- An entry is read back from where it stands in the index. -/
theorem decodeAt_encode (as bs : List UInt8) (e : FrameIndexEntry) :
    decodeAt (as ++ (e.encode ++ bs)) as.length = e := by
  have hlen : e.encode.length = 13 := e.length_encode
  have h0 : u32At e.encode 0 = e.offset := u32At_layout rfl
  have h4 : u32At e.encode 4 = e.storedLen := u32At_layout rfl
  have h8 : u8At e.encode 8 = e.codec.toByte := u8At_layout rfl
  have h9 : u32At e.encode 9 = e.crc := u32At_layout rfl
  have hzero : u32At (as ++ (e.encode ++ bs)) as.length = u32At (e.encode ++ bs) 0 :=
    u32At_append_right as _ 0
  simp only [decodeAt, hzero, u32At_append_right, u8At_append_right]
  rw [u32At_append_left _ _ (by omega), u32At_append_left _ _ (by omega),
    u8At_append_left _ _ (by omega), u32At_append_left _ _ (by omega), h0, h4, h8, h9,
    CompressionCodec.ofByte_toByte]

end FrameIndexEntry

namespace FrameIndex

@[simp] theorem length_encode (es : List FrameIndexEntry) :
    (encode es).length = es.length * frameIndexEntrySize := by
  simp [encode, length_flatMap]

theorem entriesAt_encode (as : List UInt8) (es : List FrameIndexEntry) :
    entriesAt (as ++ encode es) es.length as.length = es := by
  induction es generalizing as with
  | nil => rfl
  | cons e es ih =>
    have hnext : as.length + frameIndexEntrySize = (as ++ e.encode).length := by simp
    have hbytes : as ++ encode (e :: es) = as ++ (e.encode ++ encode es) := rfl
    rw [length_cons, entriesAt, hbytes, FrameIndexEntry.decodeAt_encode, hnext, ← append_assoc, ih]

theorem decode_encode (es : List FrameIndexEntry) :
    decode (encode es) (crc32c (encode es)) = .ok es := by
  have hcount : (encode es).length / frameIndexEntrySize = es.length := by
    rw [length_encode]
    exact Nat.mul_div_cancel _ (by decide)
  have hentries : entriesAt (encode es) es.length 0 = es := entriesAt_encode [] es
  simp [decode, Nat.mul_mod_left, hentries, frameIndexEntrySize]

end FrameIndex

namespace RecordTrailer

@[simp] theorem length_encode (n : UInt32) : (encode n).length = recordTrailerSize := by
  simp [encode, length_layout, recordTrailerSize, -layout_cons]

theorem decode_encode (n : UInt32) : decode (encode n) = .ok n := by
  have hlen : ¬ (encode n).length < recordTrailerSize := by simp
  have htake : (encode n).take 4 = layout [f32 n] :=
    take_layout (show width [f32 n] = 4 by simp) [f32 (crc32c (layout [f32 n])), f32 0]
  have hcrc : u32At (encode n) 4 = crc32c (layout [f32 n]) := u32At_layout rfl
  have hreserved : u32At (encode n) 8 = 0 := u32At_layout rfl
  have hlenField : u32At (encode n) 0 = n := u32At_layout rfl
  simp only [decode, if_neg hlen, htake, hcrc, hreserved, hlenField, ne_eq, not_true_eq_false,
    if_false]

end RecordTrailer

/-! ### Commits -/

namespace BatchCommit

variable (b : BatchCommit)

theorem width_checkedFields : width b.checkedFields = 38 := by
  simp [checkedFields]

@[simp] theorem length_encode : b.encode.length = batchCommitSize := by
  simp [encode, length_layout, width_checkedFields, batchCommitSize, -layout_cons]

theorem decode_encode (hm : b.magic = batchCommitMagic) : decode b.encode = .ok b := by
  have hlen : ¬ b.encode.length < batchCommitSize := by simp
  have htake : b.encode.take 38 = layout b.checkedFields := take_layout b.width_checkedFields _
  have hcrc : u32At b.encode 38 = crc32c (layout b.checkedFields) := u32At_layout rfl
  have hmagic : u32At b.encode 0 = b.magic := u32At_layout rfl
  have h4 : u8At b.encode 4 = b.version := u8At_layout rfl
  have h5 : u8At b.encode 5 = b.streamID := u8At_layout rfl
  have h6 : u64At b.encode 6 = b.seq := u64At_layout rfl
  have h14 : u32At b.encode 14 = b.recordCount := u32At_layout rfl
  have h18 : u64At b.encode 18 = b.firstOffset := u64At_layout rfl
  have h26 : u64At b.encode 26 = b.lastOffset := u64At_layout rfl
  have h34 : u32At b.encode 34 = b.descriptorsCRC := u32At_layout rfl
  simp only [decode, if_neg hlen, htake, hcrc, hmagic, hm, ne_eq, not_true_eq_false, if_false,
    h4, h5, h6, h14, h18, h26, h34]
  rw [← hm]

end BatchCommit

namespace CommitRecord

variable (r : CommitRecord)

theorem width_checkedFields : width r.checkedFields = 69 := by
  simp [checkedFields]

@[simp] theorem length_encode : r.encode.length = commitRecordSize := by
  simp [encode, length_layout, width_checkedFields, commitRecordSize, -layout_cons]

theorem decode_encode : decode r.encode = .ok r := by
  have hlen : ¬ r.encode.length < commitRecordSize := by simp
  have htake : r.encode.take 69 = layout r.checkedFields := take_layout r.width_checkedFields _
  have hcrc : u32At r.encode 69 = crc32c (layout r.checkedFields) := u32At_layout rfl
  have h0 : u64At r.encode 0 = r.seq := u64At_layout rfl
  have h8 : u8At r.encode 8 = r.op.toByte := u8At_layout rfl
  have h9 : u64At r.encode 9 = r.extentID := u64At_layout rfl
  have h17 : u64At r.encode 17 = r.generation := u64At_layout rfl
  have h25 : u64At r.encode 25 = r.segmentID := u64At_layout rfl
  have h33 : u64At r.encode 33 = r.offset := u64At_layout rfl
  have h41 : u32At r.encode 41 = r.storedLen := u32At_layout rfl
  have h45 : u32At r.encode 45 = r.logicalLen := u32At_layout rfl
  have h49 : u32At r.encode 49 = r.checksum := u32At_layout rfl
  have h53 : u64At r.encode 53 = r.sourceSegment := u64At_layout rfl
  have h61 : u64At r.encode 61 = r.sourceOffset := u64At_layout rfl
  simp only [decode, if_neg hlen, htake, hcrc, ne_eq, not_true_eq_false, if_false, h0, h8, h9,
    h17, h25, h33, h41, h45, h49, h53, h61, CommitLogOp.ofByte_toByte]

end CommitRecord

/-- Feeding the descriptors one by one gives the checksum of all of them in one buffer. -/
theorem pendingDescriptorsCRC_eq (ds : List CommitDescriptor) :
    pendingDescriptorsCRC ds = descriptorCRC ds := by
  have hfold : ∀ c, ds.foldl (fun c d => Crc.update Crc.castagnoli c d.encode) c =
      Crc.update Crc.castagnoli c (ds.flatMap CommitDescriptor.encode) := by
    induction ds with
    | nil => intro c; rfl
    | cons d ds ih =>
      intro c
      rw [foldl_cons, ih, flatMap_cons, Crc.update_append]
  rw [pendingDescriptorsCRC, hfold, descriptorCRC, crc32c, Crc.crc32]

/-! ### Segment headers and footers -/

namespace SegmentHeader

theorem width_checkedFields (h : SegmentHeader) : width h.checkedFields = 18 := by
  simp [checkedFields]

@[simp] theorem length_encode (h : SegmentHeader) : h.encode.length = segmentHeaderSize := by
  simp [encode, length_layout, width_checkedFields, segmentHeaderSize, -layout_cons]

theorem decode_encode (h : SegmentHeader) (hm : h.magic = segmentMagic)
    (hv : h.version = formatVersion) : decode h.encode = .ok h := by
  have hlen : ¬ h.encode.length < segmentHeaderSize := by simp
  have htake : h.encode.take 18 = layout h.checkedFields := take_layout h.width_checkedFields _
  have hcrc : u32At h.encode 18 = crc32c (layout h.checkedFields) := u32At_layout rfl
  have hmagic : u32At h.encode 0 = h.magic := u32At_layout rfl
  have hversion : u8At h.encode 4 = h.version := u8At_layout rfl
  have h5 : u64At h.encode 5 = h.id := u64At_layout rfl
  have h13 : u8At h.encode 13 = h.segmentClass.toByte := u8At_layout rfl
  have h14 : u32At h.encode 14 = h.reserved := u32At_layout rfl
  simp only [decode, if_neg hlen, htake, hcrc, hmagic, hversion, hm, hv, ne_eq,
    not_true_eq_false, if_false, h5, h13, h14, SegmentClass.ofByte_toByte]
  rw [← hm, ← hv]

end SegmentHeader

namespace SegmentFooter

variable (f : SegmentFooter)

theorem width_checkedFields : width f.checkedFields = 61 := by
  simp [checkedFields]

@[simp] theorem length_encode : f.encode.length = segmentFooterSize := by
  simp [encode, length_layout, width_checkedFields, segmentFooterSize, -layout_cons]

theorem decode_encode (hm : f.magic = segmentMagic) (hv : f.version = formatVersion) :
    decode f.encode = .ok f := by
  have hlen : ¬ f.encode.length < segmentFooterSize := by simp
  have hmagic : u32At f.encode 0 = f.magic := u32At_layout rfl
  have hversion : u8At f.encode 4 = f.version := u8At_layout rfl
  have h5 : u64At f.encode 5 = f.recordCount := u64At_layout rfl
  have h13 : u64At f.encode 13 = f.totalPayload := u64At_layout rfl
  have h21 : u64At f.encode 21 = f.minExtentID := u64At_layout rfl
  have h29 : u64At f.encode 29 = f.maxExtentID := u64At_layout rfl
  have h37 : u64At f.encode 37 = f.lastCommittedSeq := u64At_layout rfl
  have h45 : u64At f.encode 45 = f.createdAtUnix := u64At_layout rfl
  have h53 : u64At f.encode 53 = f.sealedAtUnix := u64At_layout rfl
  have h61 : u32At f.encode 61 = f.segmentCRC := u32At_layout rfl
  simp only [decode, if_neg hlen, hmagic, hversion, hm, hv, ne_eq, not_true_eq_false, if_false,
    h5, h13, h21, h29, h37, h45, h53, h61]
  rw [← hm, ← hv]

end SegmentFooter

end Nufs.Storage
