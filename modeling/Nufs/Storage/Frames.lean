/-
Payloads as frames: how a write is cut into frames, compressed, sealed and indexed,
and how a record's frames are read back.

Compression and encryption are other people's code, so they are parameters: a
`FrameCodec` holds the functions, and what is assumed of them is said where it is
used.  The nonces a writer draws at random are arguments.
-/
import Nufs.Storage.Record

namespace Nufs.Storage

/-! ### Third-party parts -/

/-- The compression library, the AEAD and the key service a store is built with. -/
structure FrameCodec where
  zstdEncode : List UInt8 → List UInt8
  zstdDecode : List UInt8 → Except Err (List UInt8)
  /-- Does a sample of the first length that compresses to the second save at least a tenth,
  in the floating-point arithmetic of the source? -/
  meetsMinSavings : Nat → Nat → Bool
  /-- Seal a frame under a key with a nonce. -/
  encryptFrame : (key nonce frame : List UInt8) → Except Err (List UInt8)
  decryptFrame : (key frame : List UInt8) → Except Err (List UInt8)
  /-- The numeric id and the bytes of the active key, if encryption is on. -/
  activeKey : Option (Except Err (UInt64 × List UInt8))
  /-- The key a record header names. -/
  resolveNumeric : UInt64 → Except Err (List UInt8)

variable (c : FrameCodec)

/-! ### Building a record -/

/-- `CompressFrame`: the compressed bytes, if they are fewer. -/
def compressFrame (payload : List UInt8) : Option (List UInt8) :=
  let out := c.zstdEncode payload
  if payload.length ≤ out.length then none else some out

def compressionNoCompressionThreshold : Nat := 4 * 2 ^ 10
def smallFileThreshold : Nat := 64 * 2 ^ 10

/-- `ShouldCompress`, with the 4096-byte sample `Store.Write` takes. -/
def shouldCompress (payload : List UInt8) : Bool :=
  if payload.length < compressionNoCompressionThreshold then false
  else if smallFileThreshold < payload.length then true
  else
    let sample := payload.take 4096
    let compressed := c.zstdEncode sample
    if sample.length ≤ compressed.length then false
    else c.meetsMinSavings sample.length compressed.length

/-- The first `n` frames of a payload. -/
def splitFrames (frameSize : Nat) : Nat → List UInt8 → List (List UInt8)
  | 0, _ => []
  | n + 1, payload => payload.take frameSize :: splitFrames frameSize n (payload.drop frameSize)

/-- The number of frames of a payload; an empty one has one empty frame. -/
def frameCount (frameSize : Nat) : List UInt8 → Nat
  | [] => 1
  | b :: payload => ((b :: payload).length + frameSize - 1) / frameSize

/-- One frame as it is stored: compressed if that helps, then sealed. -/
def storeFrame (compressed : Bool) (encKey : Option (List UInt8)) (nonce frame : List UInt8) :
    Except Err (List UInt8 × CompressionCodec) :=
  let (stored, codec) :=
    match (if compressed then compressFrame c frame else none) with
    | some out => (out, CompressionCodec.zstd)
    | none => (frame, CompressionCodec.none)
  match encKey with
  | none => .ok (stored, codec)
  | some key =>
    match c.encryptFrame key nonce stored with
    | .error e => .error e
    | .ok sealed => .ok (sealed, codec)

/-- The loop of `BuildFramedRecord`: the stored bytes and the index entries. -/
def buildFrames (compressed : Bool) (encKey : Option (List UInt8)) (nonce : Nat → List UInt8) :
    (frames : List (List UInt8)) → (i : Nat) → (offset : UInt32) →
      Except Err (List UInt8 × List FrameIndexEntry)
  | [], _, _ => .ok ([], [])
  | frame :: frames, i, offset =>
    match storeFrame c compressed encKey (nonce i) frame with
    | .error e => .error e
    | .ok (stored, codec) =>
      match buildFrames compressed encKey nonce frames (i + 1)
          (offset + UInt32.ofNat stored.length) with
      | .error e => .error e
      | .ok (rest, entries) =>
        .ok (stored ++ rest,
          { offset, storedLen := UInt32.ofNat stored.length, codec, crc := crc32c stored } ::
            entries)

/-- `BuildFramedRecord` with the default frame size. -/
def buildFramedRecord (payload : List UInt8) (compressed : Bool) (encKey : Option (List UInt8))
    (nonce : Nat → List UInt8) : Except Err (List UInt8 × List FrameIndexEntry) :=
  buildFrames c compressed encKey nonce
    (splitFrames defaultFrameSize (frameCount defaultFrameSize payload) payload) 0 0

/-- The numeric id and the bytes of the key to seal under; plaintext has id zero. -/
def encKey : Except Err (UInt64 × Option (List UInt8)) :=
  match c.activeKey with
  | none => .ok (0, none)
  | some (.error e) => .error e
  | some (.ok (keyID, key)) => .ok (keyID, some key)

/-- The header a PUT record gets, in `Store.Write` and `Store.AppendRecord`. -/
def putHeader (extentID : ExtentID) (generation : Generation) (data stored : List UInt8)
    (entries : List FrameIndexEntry) (codec : CompressionCodec) (keyID : UInt64) :
    RecordHeader where
  magic := recordMagic
  version := formatVersion
  op := .put
  extentID
  generation
  logicalLen := UInt32.ofNat data.length
  storedLen := UInt32.ofNat stored.length
  codec
  keyID
  -- The default frame size does not fit the field and wraps to zero, which stands for it.
  frameSize := UInt16.ofNat defaultFrameSize
  frameCount := UInt16.ofNat entries.length
  payloadChecksum := crc32c data
  frameIndexCRC := crc32c (FrameIndex.encode entries)

end Nufs.Storage
