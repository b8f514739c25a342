/-
Reading records back from a segment: a whole payload, or a range of it.

A read first locates the frames of a record from its header, its frame index and
its trailer, and then fetches frames.  Every frame is checked against its own
checksum before it is opened, that is decrypted and decompressed.  A range read
fetches only the frames it needs, which it finds from the logical offsets.

Where the source would index outside a buffer the functions here return
`sliceBounds`.
-/
import Nufs.Storage.Frames
import Nufs.Storage.SegmentFile

namespace Nufs.Storage

open ByteFile

/-- The runtime error of a slice expression that is out of range. -/
def sliceBounds : Err := .message "runtime error: slice bounds out of range"

/-- `Reader`: an open segment file. -/
structure Reader where
  /-- The file as it is now. -/
  bytes : List UInt8
  /-- The size of the file when it was last looked at. -/
  sizeBytes : Nat
  /-- The key registry, if records may be encrypted. -/
  enc : Option (UInt64 → Except Err (List UInt8))

/-- `recordLayout`: where the frames of a record lie, and the key to open them. -/
structure RecordLayout where
  header : RecordHeader
  frameIndex : List FrameIndexEntry
  firstFrameAt : Nat
  totalStored : Nat
  decKey : Option (List UInt8)

/-- `recordIsPlain`: is every frame stored uncompressed? -/
def recordIsPlain (layout : RecordLayout) : Bool :=
  layout.frameIndex.all fun e => e.codec = .none

/-- Decrypt a stored frame if there is a key, and decompress it if it is compressed. -/
def openFrame (c : FrameCodec) (decKey : Option (List UInt8)) (codec : CompressionCodec)
    (frame : List UInt8) : Except Err (List UInt8) := do
  let frame ← match decKey with
    | none => .ok frame
    | some key => c.decryptFrame key frame
  if codec = .zstd then c.zstdDecode frame else .ok frame

/-- Go's `copy` to the free part of a buffer of the given size. -/
def copyInto (size : Nat) (out bs : List UInt8) : List UInt8 :=
  out ++ bs.take (size - out.length)

namespace Reader

/-- `OpenReaderWithEnc`: a file that looks sealed is validated first. -/
def openReaderWithEnc (inSealedDir : Bool) (enc : Option (UInt64 → Except Err (List UInt8)))
    (bytes : List UInt8) : Except Err Reader :=
  if inSealedDir || hasEncodedSegmentFooter bytes then
    match validateSealedSegment bytes with
    | .error e => .error e
    | .ok _ => .ok ⟨bytes, bytes.length, enc⟩
  else .ok ⟨bytes, bytes.length, enc⟩

/-- `ReadAt`: exactly `n` bytes, or the end of the file. -/
def readAt (r : Reader) (n off : Nat) : Except Err (List UInt8) :=
  match readFullAt r.bytes n off with
  | some bs => .ok bs
  | none => .error (.message "EOF")

/-- The key a header names; id zero stands for plaintext. -/
def resolveKey (r : Reader) (keyID : UInt64) : Except Err (Option (List UInt8)) :=
  if keyID = 0 then .ok none
  else
    match r.enc with
    | none => .error .decryptFailed
    | some resolveNumeric => (resolveNumeric keyID).map some

/-- `Reader.readRecordLayout`. -/
def readRecordLayout (r : Reader) (offset : Nat) (storedLen logicalLen : UInt32) :
    Except Err RecordLayout :=
  if offset < segmentHeaderSize then .error .indexCorrupt
  else do
    let hb ← r.readAt recordHeaderSize offset
    let header ← RecordHeader.decode hb
    if header.logicalLen ≠ logicalLen then .error .indexCorrupt
    else
      let indexBytes := header.frameCount.toNat * frameIndexEntrySize
      let idxBuf ← r.readAt indexBytes (offset + recordHeaderSize)
      let entries ← FrameIndex.decode idxBuf header.frameIndexCRC
      let firstFrameOff := offset + recordHeaderSize + indexBytes
      let totalStored := (entries.map fun e => e.storedLen.toNat).sum
      let recordEnd := firstFrameOff + totalStored + recordTrailerSize
      if totalStored ≠ storedLen.toNat then .error .indexCorrupt
      -- A size that is too small may be an old one of a growing segment: look again.
      else if r.sizeBytes < recordEnd ∧ r.bytes.length < recordEnd then .error .indexCorrupt
      else
        let decKey ← r.resolveKey header.keyID
        let tr ← r.readAt recordTrailerSize (firstFrameOff + totalStored)
        let framingLen ← RecordTrailer.decode tr
        let framing := recordHeaderSize + indexBytes + totalStored + recordTrailerSize
        if framingLen ≠ UInt32.ofNat framing then .error .indexCorrupt
        else .ok ⟨header, entries, firstFrameOff, totalStored, decKey⟩

/-- Fetch a stored frame and check it. -/
def fetchFrame (r : Reader) (layout : RecordLayout) (e : FrameIndexEntry) :
    Except Err (List UInt8) := do
  let frame ← r.readAt e.storedLen.toNat (layout.firstFrameAt + e.offset.toNat)
  verifyFrameCRC frame e.crc
  return frame

/-- `Reader.readLogicalFrame`. -/
def readLogicalFrame (c : FrameCodec) (r : Reader) (layout : RecordLayout) (e : FrameIndexEntry) :
    Except Err (List UInt8) :=
  if layout.totalStored < e.offset.toNat + e.storedLen.toNat then .error .indexCorrupt
  else do
    let frame ← r.fetchFrame layout e
    openFrame c layout.decKey e.codec frame

/-- The fast loop of `ReadPayloadFrames`: plain frames go straight to their place. -/
def readPlainFrames (r : Reader) (layout : RecordLayout) (logicalLen : Nat) :
    List FrameIndexEntry → (out : List UInt8) → Except Err (List UInt8)
  | [], out => .ok out
  | e :: es, out =>
    if layout.totalStored < e.offset.toNat + e.storedLen.toNat then .error .indexCorrupt
    else if logicalLen < out.length + e.storedLen.toNat then .error sliceBounds
    else
      match r.fetchFrame layout e with
      | .error err => .error err
      | .ok frame => readPlainFrames r layout logicalLen es (out ++ frame)

/-- The other loop of `ReadPayloadFrames`. -/
def readLogicalFrames (c : FrameCodec) (r : Reader) (layout : RecordLayout) (logicalLen : Nat) :
    List FrameIndexEntry → (out : List UInt8) → Except Err (List UInt8)
  | [], out => .ok out
  | e :: es, out =>
    match r.readLogicalFrame c layout e with
    | .error err => .error err
    | .ok frame => readLogicalFrames c r layout logicalLen es (copyInto logicalLen out frame)

/-- All frames of a record, one after the other. -/
def readAllFrames (c : FrameCodec) (r : Reader) (layout : RecordLayout) (logicalLen : Nat) :
    Except Err (List UInt8) :=
  if layout.decKey = none ∧ recordIsPlain layout then
    r.readPlainFrames layout logicalLen layout.frameIndex []
  else r.readLogicalFrames c layout logicalLen layout.frameIndex []

/-- `Reader.ReadPayloadFrames`. -/
def readPayloadFrames (c : FrameCodec) (r : Reader) (offset : Nat)
    (storedLen logicalLen : UInt32) : Except Err (List UInt8) := do
  let layout ← r.readRecordLayout offset storedLen logicalLen
  let payload ← r.readAllFrames c layout logicalLen.toNat
  if payload.length ≠ logicalLen.toNat then .error .indexCorrupt else .ok payload

/-- The loop of `ReadRangeFrames` over the frames from `i` on, for the range from `start`
to `stop`. -/
def readRangeLoop (c : FrameCodec) (r : Reader) (layout : RecordLayout)
    (frameSize start stop : Nat) :
    List FrameIndexEntry → (i : Nat) → (out : List UInt8) → Except Err (List UInt8)
  | [], _, out => .ok out
  | e :: es, i, out =>
    let frameStart := i * frameSize
    let lo := start - frameStart
    let hi := stop - frameStart
    if layout.totalStored < e.offset.toNat + e.storedLen.toNat then .error .indexCorrupt
    else if layout.decKey = none ∧ e.codec = .none ∧ lo = 0 ∧ e.storedLen.toNat ≤ hi then
      -- The whole frame is asked for and stored as it is.
      if stop - start < out.length + e.storedLen.toNat then .error sliceBounds
      else
        match r.fetchFrame layout e with
        | .error err => .error err
        | .ok frame => readRangeLoop c r layout frameSize start stop es (i + 1) (out ++ frame)
    else
      match r.readLogicalFrame c layout e with
      | .error err => .error err
      | .ok logical =>
        let hi := min hi logical.length
        if hi ≤ lo then .error .indexCorrupt
        else
          readRangeLoop c r layout frameSize start stop es (i + 1)
            (copyInto (stop - start) out ((logical.take hi).drop lo))

/-- `Reader.ReadRangeFrames`. -/
def readRangeFrames (c : FrameCodec) (r : Reader) (offset : Nat) (storedLen logicalLen : UInt32)
    (logicalOffset length : Int) : Except Err (List UInt8) :=
  if length ≤ 0 ∨ logicalOffset < 0 ∨ (logicalLen.toNat : Int) ≤ logicalOffset then
    .error .invalidRange
  else do
    let start := logicalOffset.toNat
    -- A length that overshoots is cut off at the end of the payload.
    let stop := min (start + length.toNat) logicalLen.toNat
    let layout ← r.readRecordLayout offset storedLen logicalLen
    let frameSize := layout.header.effectiveFrameSize
    let first := start / frameSize
    let last := (stop - 1) / frameSize
    if layout.frameIndex.length ≤ last then .error .indexCorrupt
    else
      let frames := (layout.frameIndex.take (last + 1)).drop first
      let out ← r.readRangeLoop c layout frameSize start stop frames first []
      if out.length ≠ stop - start then .error .indexCorrupt else .ok out

end Reader

/-- The key registry of a store, if encryption is on. -/
def FrameCodec.registry (c : FrameCodec) : Option (UInt64 → Except Err (List UInt8)) :=
  c.activeKey.map fun _ => c.resolveNumeric

end Nufs.Storage
