/-
The container format of a segment file: the header written at creation and the
footer written once at seal time, with the checks a reader makes of them.

The footer's presence is recognised by five bytes at a fixed distance from the end
of the file; whether a recognised footer is intact is a separate question, decided
by a checksum over the whole file.
-/
import Nufs.Storage.Types
import Nufs.Lib.ByteFile

namespace Nufs.Storage

open Layout ByteFile

/-! ### Segment headers -/

/-- The immutable header of a segment file.  Its checksum is computed. -/
structure SegmentHeader where
  magic : UInt32
  version : UInt8
  id : UInt64
  segmentClass : SegmentClass
  reserved : UInt32
  deriving DecidableEq, Repr

namespace SegmentHeader

/-- The fields the header's checksum covers. -/
def checkedFields (h : SegmentHeader) : List Field :=
  [f32 h.magic, f8 h.version, f64 h.id, f8 h.segmentClass.toByte, f32 h.reserved]

/-- `SegmentHeader.Encode`. -/
def encode (h : SegmentHeader) : List UInt8 :=
  layout (h.checkedFields ++ [f32 (crc32c (layout h.checkedFields))])

/-- `SegmentHeader.Decode`. -/
def decode (src : List UInt8) : Except Err SegmentHeader :=
  if src.length < segmentHeaderSize then
    .error (.message "storage: segment header too short")
  else
    let magic := u32At src 0
    let version := u8At src 4
    if magic ≠ segmentMagic then
      .error (.message ("storage: bad segment magic 0x" ++ hex magic.toNat))
    else if version ≠ formatVersion then
      .error (.message s!"storage: unsupported segment version {version.toNat}")
    else if crc32c (src.take 18) ≠ u32At src 18 then
      .error (.message "storage: segment header crc mismatch")
    else .ok
      { magic, version
        id := u64At src 5
        segmentClass := .ofByte (u8At src 13)
        reserved := u32At src 14 }

end SegmentHeader

/-! ### Segment footers -/

/-- The footer of a sealed segment. -/
structure SegmentFooter where
  magic : UInt32
  version : UInt8
  recordCount : UInt64
  totalPayload : UInt64
  minExtentID : ExtentID
  maxExtentID : ExtentID
  lastCommittedSeq : UInt64
  createdAtUnix : UInt64
  sealedAtUnix : UInt64
  segmentCRC : UInt32
  deriving DecidableEq, Repr

namespace SegmentFooter

/-- The fields before the segment checksum. -/
def checkedFields (f : SegmentFooter) : List Field :=
  [f32 f.magic, f8 f.version, f64 f.recordCount, f64 f.totalPayload, f64 f.minExtentID,
    f64 f.maxExtentID, f64 f.lastCommittedSeq, f64 f.createdAtUnix, f64 f.sealedAtUnix]

/-- `SegmentFooter.Encode`. -/
def encode (f : SegmentFooter) : List UInt8 :=
  layout (f.checkedFields ++ [f32 f.segmentCRC])

/-- `SegmentFooter.Decode`: magic and version are verified, the segment checksum is not. -/
def decode (src : List UInt8) : Except Err SegmentFooter :=
  if src.length < segmentFooterSize then
    .error (.message "storage: segment footer too short")
  else
    let magic := u32At src 0
    let version := u8At src 4
    if magic ≠ segmentMagic then
      .error (.message ("storage: bad segment footer magic 0x" ++ hex magic.toNat))
    else if version ≠ formatVersion then
      .error (.message s!"storage: unsupported segment footer version {version.toNat}")
    else .ok
      { magic, version
        recordCount := u64At src 5
        totalPayload := u64At src 13
        minExtentID := u64At src 21
        maxExtentID := u64At src 29
        lastCommittedSeq := u64At src 37
        createdAtUnix := u64At src 45
        sealedAtUnix := u64At src 53
        segmentCRC := u32At src 61 }

end SegmentFooter

/-! ### Sealed segments -/

/-- The number of footer bytes before the segment checksum. -/
def segmentFooterCRCOffset : Nat := segmentFooterSize - 4

/-- `sealedSegmentCRC`: the checksum of the file up to the footer's own checksum field. -/
def sealedSegmentCRC (f : List UInt8) (footerOffset : Nat) (footerPrefix : List UInt8) :
    Except Err UInt32 :=
  if footerOffset < segmentHeaderSize ∨ footerPrefix.length ≠ segmentFooterCRCOffset then
    .error (.message "storage: invalid sealed segment crc range")
  else if f.length < footerOffset then
    .error .unexpectedEOF
  else
    .ok (crc32c (f.take footerOffset ++ footerPrefix))

/-- `ValidateSealedSegment`. -/
def validateSealedSegment (f : List UInt8) : Except Err SegmentFooter := do
  if f.length < segmentHeaderSize + segmentFooterSize then
    .error (.message "storage: sealed segment shorter than header and footer")
  else
    let footerOffset := f.length - segmentFooterSize
    let _ ← SegmentHeader.decode (f.take segmentHeaderSize)
    let footerBuf := f.drop footerOffset
    let footer ← SegmentFooter.decode footerBuf
    if footer.segmentCRC = 0 then
      .error (.checksumMismatch ": sealed segment crc is unset")
    else
      let got ← sealedSegmentCRC f footerOffset (footerBuf.take segmentFooterCRCOffset)
      if got ≠ footer.segmentCRC then
        .error (.checksumMismatch
          (": sealed segment crc got " ++ hex got.toNat ++ " want " ++ hex footer.segmentCRC.toNat))
      else .ok footer

/-- `hasEncodedSegmentFooter`: does the end of the file look like a footer? -/
def hasEncodedSegmentFooter (f : List UInt8) : Bool :=
  segmentHeaderSize + segmentFooterSize ≤ f.length &&
    u32At f (f.length - segmentFooterSize) == segmentMagic &&
    u8At f (f.length - segmentFooterSize + 4) == formatVersion

end Nufs.Storage
