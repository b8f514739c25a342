/-
The record format of a segment: header, frame index, frames, trailer.

A record is its header, the frame index, the stored frames and a trailer that
repeats the length of the whole.  The header's checksum covers everything up to
itself; the checksum of the frame index stands behind it, outside what it covers.
-/
import Nufs.Storage.Types

namespace Nufs.Storage

open Layout

/-! ### Record headers -/

/-- The fixed-size header of one record.  Its checksum is not a field: it is computed. -/
structure RecordHeader where
  magic : UInt32
  version : UInt8
  op : RecordOp
  extentID : ExtentID
  generation : Generation
  logicalLen : UInt32
  storedLen : UInt32
  codec : CompressionCodec
  keyID : UInt64
  /-- Bytes per frame payload; zero stands for the default. -/
  frameSize : UInt16
  frameCount : UInt16
  payloadChecksum : UInt32
  frameIndexCRC : UInt32
  deriving DecidableEq, Repr

namespace RecordHeader

/-- The fields the header checksum covers. -/
def checkedFields (h : RecordHeader) : List Field :=
  [f32 h.magic, f8 h.version, f8 h.op.toByte, f64 h.extentID, f64 h.generation,
    f32 h.logicalLen, f32 h.storedLen, f8 h.codec.toByte, f64 h.keyID, f16 h.frameSize,
    f16 h.frameCount, f32 h.payloadChecksum]

/-- `RecordHeader.Encode`. -/
def encode (h : RecordHeader) : List UInt8 :=
  layout (h.checkedFields ++ [f32 (crc32c (layout h.checkedFields)), f32 h.frameIndexCRC])

/-- `RecordHeader.Decode`: magic, version, header checksum and operation are verified. -/
def decode (src : List UInt8) : Except Err RecordHeader :=
  if src.length < recordHeaderSize then
    .error (.message s!"storage: record header too short: {src.length} < {recordHeaderSize}")
  else
    let magic := u32At src 0
    let version := u8At src 4
    let wantCRC := u32At src 47
    let gotCRC := crc32c (src.take 47)
    if magic ≠ recordMagic then
      .error (.message ("storage: bad record magic 0x" ++ hex magic.toNat))
    else if version ≠ formatVersion then
      .error (.message s!"storage: unsupported record version {version.toNat}")
    else if gotCRC ≠ wantCRC then
      .error (.message
        s!"storage: record header crc mismatch: got {gotCRC.toNat} want {wantCRC.toNat}")
    else
      match RecordOp.ofByte (u8At src 5) with
      | none => .error (.message s!"storage: unsupported record operation {(u8At src 5).toNat}")
      | some op => .ok
          { magic, version, op
            extentID := u64At src 6
            generation := u64At src 14
            logicalLen := u32At src 22
            storedLen := u32At src 26
            codec := .ofByte (u8At src 30)
            keyID := u64At src 31
            frameSize := u16At src 39
            frameCount := u16At src 41
            payloadChecksum := u32At src 43
            frameIndexCRC := u32At src 51 }

/-- `RecordHeader.EffectiveFrameSize`. -/
def effectiveFrameSize (h : RecordHeader) : Nat :=
  if h.frameSize = 0 then defaultFrameSize else h.frameSize.toNat

end RecordHeader

/-! ### Frame index -/

/-- Where one frame of a record lies, relative to the first frame byte. -/
structure FrameIndexEntry where
  offset : UInt32
  storedLen : UInt32
  codec : CompressionCodec
  crc : UInt32
  deriving DecidableEq, Repr

namespace FrameIndexEntry

def encode (e : FrameIndexEntry) : List UInt8 :=
  layout [f32 e.offset, f32 e.storedLen, f8 e.codec.toByte, f32 e.crc]

/-- The entry that starts at a byte of the index. -/
def decodeAt (src : List UInt8) (i : Nat) : FrameIndexEntry where
  offset := u32At src i
  storedLen := u32At src (i + 4)
  codec := .ofByte (u8At src (i + 8))
  crc := u32At src (i + 9)

end FrameIndexEntry

namespace FrameIndex

/-- `FrameIndex.Encode`: the entries one after the other. -/
def encode (entries : List FrameIndexEntry) : List UInt8 :=
  entries.flatMap FrameIndexEntry.encode

/-- The first `n` entries of an encoded index, from byte `i` on. -/
def entriesAt (src : List UInt8) : Nat → Nat → List FrameIndexEntry
  | 0, _ => []
  | n + 1, i => .decodeAt src i :: entriesAt src n (i + frameIndexEntrySize)

/-- `FrameIndex.Decode`: the entries, if their checksum is the expected one. -/
def decode (src : List UInt8) (expectedCRC : UInt32) : Except Err (List FrameIndexEntry) :=
  if src.length % frameIndexEntrySize ≠ 0 then
    .error (.message "storage: frame index length not multiple of entry size")
  else
    let got := crc32c src
    if got ≠ expectedCRC then
      .error (.message
        s!"storage: frame index crc mismatch: got {got.toNat} want {expectedCRC.toNat}")
    else
      .ok (entriesAt src (src.length / frameIndexEntrySize) 0)

end FrameIndex

/-! ### Trailers and whole records -/

namespace RecordTrailer

/-- `RecordTrailer.Encode`: the framing length, its checksum, and a reserved zero. -/
def encode (framingLen : UInt32) : List UInt8 :=
  layout [f32 framingLen, f32 (crc32c (layout [f32 framingLen])), f32 0]

/-- `RecordTrailer.Decode`: the framing length, if checksum and reserved word are right. -/
def decode (src : List UInt8) : Except Err UInt32 :=
  if src.length < recordTrailerSize then
    .error (.message "storage: record trailer too short")
  else if crc32c (src.take 4) ≠ u32At src 4 then
    .error (.message "storage: record trailer crc mismatch")
  else if u32At src 8 ≠ 0 then
    .error (.message "storage: record trailer reserved bytes are non-zero")
  else
    .ok (u32At src 0)

end RecordTrailer

/-- `RecordFraming`: the on-disk size of a record, in the 32-bit arithmetic of the source. -/
def recordFraming (storedLen : UInt32) (frameCount : Nat) : UInt32 :=
  UInt32.ofNat recordHeaderSize + UInt32.ofNat (frameCount * frameIndexEntrySize) + storedLen +
    UInt32.ofNat recordTrailerSize

/-- The bytes `Writer.WriteRecordFramed` puts at a record's offset. -/
def encodeRecordFramed (h : RecordHeader) (frameIndex payload : List UInt8) : List UInt8 :=
  h.encode ++ frameIndex ++ payload ++
    RecordTrailer.encode (recordFraming h.storedLen h.frameCount.toNat)

/-- `VerifyFrameCRC`. -/
def verifyFrameCRC (payload : List UInt8) (want : UInt32) : Except Err Unit :=
  if crc32c payload ≠ want then
    .error (.checksumMismatch s!": stored={want.toNat} computed={(crc32c payload).toNat}")
  else .ok ()

end Nufs.Storage
