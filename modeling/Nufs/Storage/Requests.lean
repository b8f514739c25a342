/-
The requests of a store: `Write`, `Delete` and the compactor's `AppendRecord`.

A `Write` or `Delete` looks the extent up, builds its record, is committed with
others in one batch, and then hands its location to the apply queue.  The three
parts are separate functions here, since other requests run between them.
-/
import Nufs.Storage.Store

namespace Nufs.Storage

open ByteFile

/-- `DurableReceipt`. -/
structure DurableReceipt where
  extentID : ExtentID
  generation : Generation
  segmentID : SegmentID
  offset : Nat
  storedLen : UInt32
  logicalLen : UInt32
  seq : UInt64
  deriving DecidableEq, Repr

/-- `storage.Reloc`. -/
structure Reloc where
  key : Key
  segmentID : SegmentID
  offset : Nat
  storedLen : UInt32
  logicalLen : UInt32
  checksum : UInt32
  deriving DecidableEq, Repr

/-- The value a relocation publishes. -/
def Reloc.value (r : Reloc) : Value where
  segmentID := r.segmentID
  offset := r.offset
  storedLen := r.storedLen
  logicalLen := r.logicalLen
  state := .durable
  checksum := r.checksum

namespace Store

/-! ### Write -/

/-- `Store.receiptFor`. -/
def receiptFor (s : Store) (k : Key) (v : Value) : DurableReceipt where
  extentID := k.1
  generation := k.2
  segmentID := v.segmentID
  offset := v.offset
  storedLen := v.storedLen
  logicalLen := v.logicalLen
  seq := s.streamSeq

/-- The first phase of `Store.Write`: what it returns at once if the extent is known. -/
def writeLookup (s : Store) (k : Key) (data : List UInt8) : Option (Except Err DurableReceipt) :=
  match s.lookup k with
  | none => none
  | some v =>
    some (if v.checksum = crc32c data then .ok (s.receiptFor k v) else .error .staleGeneration)

/-- The record of a PUT, sealed under the given key. -/
def buildPut (c : FrameCodec) (nonce : Nat → List UInt8) (k : Key) (data : List UInt8)
    (compressed : Bool) (codec : CompressionCodec) (encKey : UInt64 × Option (List UInt8)) :
    Except Err PendingWrite :=
  match buildFramedRecord c data compressed encKey.2 nonce with
  | .error e => .error e
  | .ok (stored, entries) => .ok
      { header := putHeader k.1 k.2 data stored entries codec encKey.1
        idxBuf := FrameIndex.encode entries
        stored
        publishedValue := none }

/-- The second phase of `Store.Write`: the record. -/
def buildWrite (c : FrameCodec) (nonce : Nat → List UInt8) (k : Key) (data : List UInt8) :
    Except Err PendingWrite :=
  let compressed := shouldCompress c data
  match encKey c with
  | .error e => .error e
  | .ok key => buildPut c nonce k data compressed (if compressed then .zstd else .none) key

/-- The receipt of a committed write. -/
def receipt (pw : PlacedWrite) : DurableReceipt where
  extentID := pw.header.extentID
  generation := pw.header.generation
  segmentID := pw.segID
  offset := pw.offset
  storedLen := pw.header.storedLen
  logicalLen := pw.header.logicalLen
  seq := pw.streamSeq

/-! ### Delete -/

/-- The value a delete publishes: the old location, tombstoned. -/
def tombstoneOf (v : Value) : Value := { v with state := .tombstoned }

/-- The zero-frame record `Store.Delete` submits. -/
def deletePending (k : Key) (v : Value) : PendingWrite where
  header :=
    { magic := recordMagic, version := formatVersion, op := .delete, extentID := k.1
      generation := k.2, logicalLen := 0, storedLen := 0, codec := .none, keyID := 0
      frameSize := 0, frameCount := 0, payloadChecksum := 0, frameIndexCRC := crc32c [] }
  idxBuf := []
  stored := []
  publishedValue := some (tombstoneOf v)

/-! ### After the commit -/

/-- What a write or delete does once its batch is committed. -/
def finish (pw : PlacedWrite) (s : Store) : Store :=
  match pw.publishedValue with
  | none => s.enqueueApply [⟨pw.key, pw.location .durable⟩]
  | some tombstone =>
    { s with locCache := s.locCache.insert pw.key tombstone }.enqueueApply
      [⟨pw.key, tombstone⟩]

/-! ### The compactor's request -/

/-- The record `Store.AppendRecord` builds. -/
def buildAppend (c : FrameCodec) (nonce : Nat → List UInt8) (k : Key) (data : List UInt8)
    (codec : CompressionCodec) : Except Err PendingWrite :=
  match encKey c with
  | .error e => .error e
  | .ok key => buildPut c nonce k data (codec = .zstd) codec key

/-- The reservation of `Store.AppendRecord`, sealing at most once. -/
def reserveOne (fault : Fault) (now : UInt64) (pw : PendingWrite) (s : Store) :
    Except Err Nat × Fault × Store :=
  match s.alloc.reserve pw.framing pw.header.extentID pw.header.storedLen with
  | .ok (off, alloc) => (.ok off, fault, { s with alloc })
  | .error .segmentFull =>
    match sealActiveLocked fault now s with
    | (.error e, fault, s) => (.error e, fault, s)
    | (.ok _, fault, s) =>
      match s.alloc.reserve pw.framing pw.header.extentID pw.header.storedLen with
      | .ok (off, alloc) => (.ok off, fault, { s with alloc })
      | .error e => (.error e, fault, s)
  | .error e => (.error e, fault, s)

/-- `Store.AppendRecord` behind the building of its record. -/
def appendRecord (fault : Fault) (now : UInt64) (pw : PendingWrite) (s : Store) :
    Except Err Reloc × Store :=
  match reserveOne fault now pw s with
  | (.error e, _, s) => (.error e, s)
  | (.ok off, fault, s) =>
    match s.alloc.reserveCommit batchCommitSize with
    | .error e => (.error e, s)
    | .ok (_, alloc) =>
      let previousSeq := s.streamSeq
      let seq := previousSeq + 1
      let placed : PlacedWrite :=
        { pw with segID := s.alloc.segmentID, offset := off, streamSeq := previousSeq }
      let s := { s with alloc, streamSeq := seq }
      let commitOffset := off + pw.framing.toNat
      match runOps [.write s.alloc.segmentID off pw.bytes,
          .write s.alloc.segmentID commitOffset (s.batchCommit [placed] commitOffset).encode,
          .sync s.alloc.segmentID] fault s.files with
      | (false, _, files) => (.error .ioError, { s with files })
      | (true, _, files) =>
        let s := { s with files, overlay := s.overlay.put pw.key (placed.location .durable) }
        let s := publishRecoveryBatch previousSeq seq 1 s
        let s := s.enqueueApply [⟨pw.key, placed.location .durable⟩]
        (.ok ⟨pw.key, placed.segID, off, pw.header.storedLen, pw.header.logicalLen,
            pw.header.payloadChecksum⟩,
          { s with alloc := s.alloc.recordCommit seq })

end Store

end Nufs.Storage
