/-
What a segment file is meant to hold: a list of entries.

Behind its header a segment is a log.  An entry is a batch, which is one or more
framed records followed by the BatchCommit that binds them, or an INDEX_SAFE
marker.  This file says what the bytes of such a log are, and what replaying it
should hand to the index.  It is the abstract side of the format: the writer
produces these bytes, and recovery has to find the entries in them again.

A framed record carries the facts the writer establishes about it, so a record
that recovery would not accept cannot be built.
-/
import Nufs.Storage.Record
import Nufs.Storage.Journal
import Nufs.Storage.SegmentFile

namespace Nufs.Storage

/-! ### Framed records -/

namespace FrameIndex

/-- The entries lie one after the other, from `off` on. -/
def Contiguous : List FrameIndexEntry → Nat → Prop
  | [], _ => True
  | e :: es, off => e.offset.toNat = off ∧ Contiguous es (off + e.storedLen.toNat)

/-- The number of stored bytes the entries describe. -/
def storedTotal (es : List FrameIndexEntry) : Nat :=
  (es.map fun e => e.storedLen.toNat).sum

end FrameIndex

/-- A record as the writer frames it: the header fits the frames it stands before. -/
structure FramedRecord where
  header : RecordHeader
  entries : List FrameIndexEntry
  stored : List UInt8
  magic_eq : header.magic = recordMagic
  version_eq : header.version = formatVersion
  frameCount_eq : header.frameCount.toNat = entries.length
  storedLen_eq : header.storedLen.toNat = stored.length
  frameIndexCRC_eq : header.frameIndexCRC = crc32c (FrameIndex.encode entries)
  contiguous : FrameIndex.Contiguous entries 0
  storedTotal_eq : FrameIndex.storedTotal entries = stored.length
  /-- A delete record carries no payload. -/
  delete_empty : header.op = .delete → entries = [] ∧ header.logicalLen = 0

namespace FramedRecord

/-- The encoded frame index. -/
def index (r : FramedRecord) : List UInt8 :=
  FrameIndex.encode r.entries

/-- The encoded trailer. -/
def trailer (r : FramedRecord) : List UInt8 :=
  RecordTrailer.encode (recordFraming r.header.storedLen r.header.frameCount.toNat)

/-- The bytes of the record in the file. -/
def bytes (r : FramedRecord) : List UInt8 :=
  encodeRecordFramed r.header r.index r.stored

/-- What recovery is to make of the record when it stands at an offset. -/
def descriptor (segID : SegmentID) (off : Nat) (r : FramedRecord) : CommitDescriptor where
  extentID := r.header.extentID
  generation := r.header.generation
  segmentID := segID
  offset := off
  storedLen := r.header.storedLen
  logicalLen := r.header.logicalLen
  checksum := r.header.payloadChecksum
  op := r.header.op

/-- The zero-frame record `Store.Delete` submits. -/
def delete (extentID : ExtentID) (generation : Generation) : FramedRecord where
  header :=
    { magic := recordMagic, version := formatVersion, op := .delete, extentID, generation
      logicalLen := 0, storedLen := 0, codec := .none, keyID := 0, frameSize := 0
      frameCount := 0, payloadChecksum := 0, frameIndexCRC := crc32c [] }
  entries := []
  stored := []
  magic_eq := rfl
  version_eq := rfl
  frameCount_eq := rfl
  storedLen_eq := rfl
  frameIndexCRC_eq := rfl
  contiguous := trivial
  storedTotal_eq := rfl
  delete_empty := fun _ => ⟨rfl, rfl⟩

end FramedRecord

/-- The bytes of records that stand one after the other. -/
def recordsBytes (rs : List FramedRecord) : List UInt8 :=
  rs.flatMap FramedRecord.bytes

/-- The descriptors of records that stand one after the other, from `off` on. -/
def recordsDescriptors (segID : SegmentID) : Nat → List FramedRecord → List CommitDescriptor
  | _, [] => []
  | off, r :: rs => r.descriptor segID off :: recordsDescriptors segID (off + r.bytes.length) rs

/-- How many of the records lie wholly within the first `k` bytes. -/
def wholeRecords : List FramedRecord → Nat → Nat
  | [], _ => 0
  | r :: rs, k => if r.bytes.length ≤ k then wholeRecords rs (k - r.bytes.length) + 1 else 0

/-! ### Entries -/

/-- A batch: its commit sequence and its records.  Sequences start at one. -/
structure Batch where
  seq : UInt64
  records : List FramedRecord
  seq_pos : 0 < seq
  nonempty : records ≠ []

namespace Batch

variable (segID : SegmentID) (streamID : UInt8) (off : Nat) (b : Batch)

/-- The commit of the batch when its first record stands at `off`. -/
def commit : BatchCommit where
  magic := batchCommitMagic
  version := formatVersion
  streamID := streamID
  seq := b.seq
  recordCount := UInt32.ofNat b.records.length
  firstOffset := UInt64.ofNat off
  lastOffset := UInt64.ofNat (off + (recordsBytes b.records).length)
  descriptorsCRC := descriptorCRC (recordsDescriptors segID off b.records)

/-- The bytes of the batch when its first record stands at `off`. -/
def bytes : List UInt8 :=
  recordsBytes b.records ++ (b.commit segID streamID off).encode

end Batch

/-- An entry of a segment's log. -/
inductive LogEntry
  | batch (b : Batch)
  | marker (r : CommitRecord) (h : r.op = .indexSafe)

namespace LogEntry

/-- The marker a flush writes. -/
def safeAt (q : UInt64) : LogEntry := .marker (.indexSafe q) rfl

variable (segID : SegmentID) (streamID : UInt8)

def bytes (off : Nat) : LogEntry → List UInt8
  | batch b => b.bytes segID streamID off
  | marker r _ => r.encode

/-- What replaying the entry hands to the index. -/
def descriptors (off : Nat) : LogEntry → List CommitDescriptor
  | batch b => recordsDescriptors segID off b.records
  | marker _ _ => []

/-- The commit sequence of a batch. -/
def seq? : LogEntry → Option UInt64
  | batch b => some b.seq
  | marker _ _ => none

/-- The marker does not start with one of the magic numbers recovery looks for first. -/
def Unambiguous : LogEntry → Prop
  | batch _ => True
  | marker r _ => UInt32.ofNat (r.seq.toNat / 2 ^ 32) ≠ batchCommitMagic ∧
      UInt32.ofNat (r.seq.toNat / 2 ^ 32) ≠ recordMagic

end LogEntry

/-! ### Logs -/

section Log

variable (segID : SegmentID) (streamID : UInt8)

/-- The bytes of a log whose first entry stands at `off`. -/
def logBytes : Nat → List LogEntry → List UInt8
  | _, [] => []
  | off, e :: es =>
    e.bytes segID streamID off ++ logBytes (off + (e.bytes segID streamID off).length) es

/-- What replaying a log hands to the index, in file order. -/
def logDescriptors : Nat → List LogEntry → List CommitDescriptor
  | _, [] => []
  | off, e :: es =>
    e.descriptors segID off ++ logDescriptors (off + (e.bytes segID streamID off).length) es

end Log

/-- The commit sequences of a log's batches. -/
def logSeqs (es : List LogEntry) : List UInt64 :=
  es.filterMap LogEntry.seq?

/-- The highest sequence the markers of a log declare safe, starting from `q`. -/
def logSafeSeq (q : UInt64) : List LogEntry → UInt64
  | [] => q
  | .batch _ :: es => logSafeSeq q es
  | .marker r _ :: es => logSafeSeq (max r.seq q) es

/-- Hand descriptors to an index one after the other. -/
def replay {σ : Type} (apply : CommitDescriptor → σ → Except Err σ) :
    List CommitDescriptor → σ → Except Err σ
  | [], sink => .ok sink
  | d :: ds, sink =>
    match apply d sink with
    | .error e => .error e
    | .ok sink => replay apply ds sink

/-- A sink that takes every descriptor and keeps them in order. -/
def collect (d : CommitDescriptor) (ds : List CommitDescriptor) :
    Except Err (List CommitDescriptor) :=
  .ok (ds ++ [d])

end Nufs.Storage
