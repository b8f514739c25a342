/-
Compaction of a sealed segment.

The worker scans the segment for records, asks the store which generation of each
extent is its newest and where the extents lie, appends the live records to the
active segment, repoints them and removes the file.  An error of the listing counts
as an empty listing, and an error of a `Stat` as a dead record.

The errors the store's answers may be, the faults of the appends, and whether the
file can be removed are parameters of a run.  Other requests do not run in between.
-/
import Nufs.Storage.Open
import Nufs.Storage.Reader

namespace Nufs.Storage

open ByteFile Layout

/-! ### Scanning -/

/-- `ScannedRecord`, with the stored bytes its `ReadPayload` returns. -/
structure ScannedRecord where
  extentID : ExtentID
  generation : Generation
  offset : Nat
  storedLen : UInt32
  logicalLen : UInt32
  codec : CompressionCodec
  stored : List UInt8
  deriving DecidableEq, Repr

def ScannedRecord.key (r : ScannedRecord) : Key := (r.extentID, r.generation)

/-- The loop of `ScanSegmentRecords`: it ends at the first bytes that are neither a BatchCommit
nor a record.  Every round goes on by more than one byte, so the length of the file is fuel
enough. -/
def scanLoop (data : List UInt8) : (fuel : Nat) → (off : Nat) → List ScannedRecord
  | 0, _ => []
  | fuel + 1, off =>
    if data.length < off + recordHeaderSize then []
    else if u32At data off = batchCommitMagic then scanLoop data fuel (off + batchCommitSize)
    else if u32At data off ≠ recordMagic then []
    else
      match RecordHeader.decode ((data.drop off).take recordHeaderSize) with
      | .error _ => []
      | .ok h =>
        let indexBytes := h.frameCount.toNat * frameIndexEntrySize
        let totalStored := h.storedLen.toNat
        let framing := recordHeaderSize + indexBytes + totalStored + recordTrailerSize
        if data.length < off + framing then []
        else
          let stored := (data.drop (off + recordHeaderSize + indexBytes)).take totalStored
          let rest := scanLoop data fuel (off + framing)
          if 0 < h.frameCount.toNat then
            ⟨h.extentID, h.generation, off, h.storedLen, h.logicalLen, h.codec, stored⟩ :: rest
          else rest

/-- `ScanSegmentRecords`. -/
def scanSegmentRecords (data : List UInt8) : List ScannedRecord :=
  scanLoop data data.length segmentHeaderSize

/-! ### What the store is asked -/

/-- `LiveExtent`. -/
structure LiveExtent where
  extentID : ExtentID
  generation : Generation
  value : Value
  deriving DecidableEq, Repr

namespace Store

/-- The overlay's snapshot in front of the index. -/
def merged (s : Store) : Index := s.overlay.entries ∪ s.overlay.draining ∪ s.index

/-- `Store.ListExtents`, where it succeeds: the highest generation of every extent, unless it is
tombstoned.  `Iterate` hands over the highest generation the index has of an extent; lower ones
could not win against it. -/
def listExtents (s : Store) : List LiveExtent :=
  (s.merged.entries.filter fun e =>
      (s.merged.entries.all fun e' => e'.1.1 ≠ e.1.1 || e'.1.2 ≤ e.1.2) &&
        e.2.state ≠ .tombstoned).map
    fun e => ⟨e.1.1, e.1.2, e.2⟩

/-- `Store.Stat`, where it is not refused. -/
def stat (s : Store) (k : Key) : Except Err Value :=
  match s.lookup k with
  | none => .error .extentNotFound
  | some v => .ok v

/-- `Store.Relocate`. -/
def relocate (relocs : List Reloc) (s : Store) : Store :=
  relocs.foldl (fun s r =>
    match s.overlay.get r.key with
    | some v =>
      if v.state = .tombstoned then s
      else { s with overlay := s.overlay.put r.key r.value, locCache := s.locCache.erase r.key }
    | none =>
      { s with overlay := s.overlay.put r.key r.value, locCache := s.locCache.erase r.key }) s

end Store

/-! ### The worker -/

/-- What a run of the worker meets. -/
structure CompactEnv where
  /-- The error `ListExtents` returns, if any. -/
  listErr : Option Err
  /-- The error `Stat` returns when it is asked about the record with this number, if any. -/
  statErr : Nat → Option Err
  /-- The nonces, the time and the fault of the append of a record. -/
  nonce : Nat → Nat → List UInt8
  now : Nat → UInt64
  fault : Nat → Fault
  /-- The error of the removal of the file, if any. -/
  removeErr : Option Err

/-- `latestGenerations`: a map made of the listing, which an error leaves empty. -/
def latestGenerations (listed : Except Err (List LiveExtent)) (extentID : ExtentID) :
    Option Generation :=
  match listed with
  | .error _ => none
  | .ok exts => (exts.reverse.find? fun e => e.extentID = extentID).map LiveExtent.generation

/-- `CompressionWorker.isLive`. -/
def isLive (srcID : SegmentID) (answer : Except Err Value) : Bool :=
  match answer with
  | .error _ => false
  | .ok v =>
    if v.state = .tombstoned ∨ v.state = .corrupt then false else v.segmentID = srcID

namespace CompactEnv

/-- What `ListExtents` returns. -/
def listed (env : CompactEnv) (s : Store) : Except Err (List LiveExtent) :=
  match env.listErr with
  | some e => .error e
  | none => .ok s.listExtents

/-- What `Stat` returns for the record with number `i`. -/
def stat (env : CompactEnv) (i : Nat) (s : Store) (k : Key) : Except Err Value :=
  match env.statErr i with
  | some e => .error e
  | none => s.stat k

end CompactEnv

/-- The record `Compact` appends. -/
def appendScanned (c : FrameCodec) (env : CompactEnv) (i : Nat) (r : ScannedRecord) (s : Store) :
    Except Err Reloc × Store :=
  match Store.buildAppend c (env.nonce i) r.key r.stored r.codec with
  | .error e => (.error e, s)
  | .ok pw => Store.appendRecord (env.fault i) (env.now i) pw s

/-- The loop of `Compactor.Compact`, from the record with number `i` on. -/
def compactLoop (c : FrameCodec) (env : CompactEnv) (srcID : SegmentID)
    (latest : ExtentID → Option Generation) :
    List ScannedRecord → (i : Nat) → Store → Except Err (List Reloc) × Store
  | [], _, s => (.ok [], s)
  | r :: records, i, s =>
    if latest r.extentID = some r.generation ∧ isLive srcID (env.stat i s r.key) then
      match appendScanned c env i r s with
      | (.error e, s) =>
        (.error (.wrapped s!"compaction: append extent {r.extentID.toNat}" e), s)
      | (.ok loc, s) =>
        match compactLoop c env srcID latest records (i + 1) s with
        | (.error e, s) => (.error e, s)
        | (.ok relocs, s) => (.ok (loc :: relocs), s)
    else compactLoop c env srcID latest records (i + 1) s

/-- `CompressionWorker.compactSegment`: the number of records copied, if the file was removed. -/
def compactSegment (c : FrameCodec) (env : CompactEnv) (srcID : SegmentID) (s : Store) :
    Except Err Nat × Store :=
  match s.files.lookup srcID with
  | none => (.error .ioError, s)
  | some file =>
    match Reader.openReaderWithEnc false none file.bytes with
    | .error e => (.error e, s)
    | .ok _ =>
      match compactLoop c env srcID (latestGenerations (env.listed s))
          (scanSegmentRecords file.bytes) 0 s with
      | (.error e, s) => (.error e, s)
      | (.ok relocs, s) =>
        let s := s.relocate relocs
        match env.removeErr with
        | some e => (.error e, s)
        | none => (.ok relocs.length, { s with files := s.files.erase srcID })

end Nufs.Storage
