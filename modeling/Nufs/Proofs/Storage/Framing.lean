/-
The records requests build are framed records.

The loop that stores the frames of a payload keeps offsets and lengths in 32 bits.
While they fit, the index it builds describes the stored bytes frame by frame, and
the record of a `Write` is one that recovery and readers accept.
-/
import Nufs.Proofs.Storage.Machine

namespace Nufs.Storage

open List

/-- The index entries lie one after the other and cover the stored bytes. -/
theorem buildFrames_entries {c : FrameCodec} {compressed : Bool} {key : Option (List UInt8)}
    {nonce : Nat → List UInt8} {frames : List (List UInt8)} {i : Nat} {offset : UInt32}
    {stored : List UInt8} {entries : List FrameIndexEntry}
    (h : buildFrames c compressed key nonce frames i offset = .ok (stored, entries))
    (hlen : offset.toNat + stored.length < 2 ^ 32) :
    entries.length = frames.length ∧ FrameIndex.Contiguous entries offset.toNat ∧
      FrameIndex.storedTotal entries = stored.length := by
  induction frames generalizing i offset stored entries with
  | nil =>
    cases h
    exact ⟨rfl, trivial, rfl⟩
  | cons frame frames ih =>
    simp only [buildFrames] at h
    split at h
    · simp at h
    rename_i first codec hfirst
    split at h
    · simp at h
    rename_i rest entries' hrest
    cases h
    rw [length_append] at hlen
    have hfirstLen : (UInt32.ofNat first.length).toNat = first.length := by
      rw [UInt32.toNat_ofNat']
      omega
    have hoffset : (offset + UInt32.ofNat first.length).toNat =
        offset.toNat + first.length := by
      rw [UInt32.toNat_add, hfirstLen]
      omega
    obtain ⟨hcount, hcontig, htotal⟩ := ih hrest (by omega)
    refine ⟨by simp [hcount], ⟨rfl, ?_⟩, ?_⟩
    · rw [hfirstLen, ← hoffset]
      exact hcontig
    · unfold FrameIndex.storedTotal at htotal ⊢
      rw [map_cons, sum_cons, htotal, hfirstLen, length_append]

theorem length_splitFrames (frameSize n : Nat) (payload : List UInt8) :
    (splitFrames frameSize n payload).length = n := by
  induction n generalizing payload with
  | zero => rfl
  | succ n ih => simp [splitFrames, ih]

namespace PendingWrite

theorem length_bytes (pw : PendingWrite) : pw.bytes.length =
      recordHeaderSize + pw.idxBuf.length + pw.stored.length + recordTrailerSize := by
  simp only [bytes, encodeRecordFramed, length_append, RecordHeader.length_encode,
    RecordTrailer.length_encode]

end PendingWrite

namespace Store

/-- The record of a PUT is framed, while its frame count and length fit their fields. -/
theorem buildPut_frames {c : FrameCodec} {nonce : Nat → List UInt8} {k : Key} {data : List UInt8}
    {compressed : Bool} {codec : CompressionCodec} {key : UInt64 × Option (List UInt8)}
    {pw : PendingWrite} (h : buildPut c nonce k data compressed codec key = .ok pw)
    (hcount : frameCount defaultFrameSize data < 2 ^ 16) (hlen : pw.bytes.length < 2 ^ 32) :
    ∃ r, pw.Frames r := by
  obtain ⟨stored, entries, hbuild, rfl⟩ := buildPut_ok h
  rw [PendingWrite.length_bytes] at hlen
  dsimp only at hlen
  have hstored : stored.length < 2 ^ 32 := by omega
  obtain ⟨hentries, hcontig, htotal⟩ := buildFrames_entries hbuild (by simpa using hstored)
  rw [length_splitFrames] at hentries
  let r : FramedRecord :=
    { header := putHeader k.1 k.2 data stored entries codec key.1
      entries
      stored
      magic_eq := rfl
      version_eq := rfl
      frameCount_eq := by
        simp only [putHeader, UInt16.toNat_ofNat']
        omega
      storedLen_eq := by
        simp only [putHeader, UInt32.toNat_ofNat']
        omega
      frameIndexCRC_eq := rfl
      contiguous := hcontig
      storedTotal_eq := htotal
      delete_empty := by simp [putHeader] }
  refine ⟨r, rfl, rfl, rfl, ?_⟩
  have hbytes : r.bytes.length = recordHeaderSize + (FrameIndex.encode entries).length +
      stored.length + recordTrailerSize :=
    PendingWrite.length_bytes ⟨r.header, r.index, r.stored, none⟩
  rw [hbytes]
  exact hlen

/-- The record of a delete is framed. -/
theorem deletePending_frames (k : Key) (v : Value) : ∃ r, (deletePending k v).Frames r := by
  refine ⟨.delete k.1 k.2, rfl, rfl, rfl, ?_⟩
  have hbytes := PendingWrite.length_bytes (deletePending k v)
  have heq : (FramedRecord.delete k.1 k.2).bytes = (deletePending k v).bytes := rfl
  rw [heq, hbytes]
  simp [deletePending, recordHeaderSize, recordTrailerSize]

end Store

end Nufs.Storage
