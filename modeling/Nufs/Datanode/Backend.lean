/-
The stores below a datanode, and its accounting for each of them.

To the datanode a segment store is a map: an extent at a generation is live with its
payload, tombstoned, or absent.  A tombstone keeps the checksum and the length of the
payload it hides, and a write under a known generation is compared with that checksum
alone, whatever the state.
-/
import Mathlib.Data.List.Dedup
import Nufs.Storage.Overlay

namespace Nufs.Datanode

open Nufs.Storage

/-- `metadata.ChunkID`: the chunk's extent has the same number. -/
abbrev ChunkID := UInt64

/-- What a segment store holds for an extent at a generation. -/
inductive Extent
  | live (data : List UInt8)
  /-- Deleted; `data` is what was deleted. -/
  | tombstoned (data : List UInt8)
  deriving DecidableEq, Repr

namespace Extent

def data : Extent → List UInt8
  | live data => data
  | tombstoned data => data

def checksum (e : Extent) : UInt32 := crc32c e.data

/-- `index.Value.LogicalLen`. -/
def logicalLen (e : Extent) : Nat := e.data.length % 2 ^ 32

end Extent

/-- `segment.LiveExtent`. -/
structure LiveExtent where
  extentID : ExtentID
  generation : Generation
  logicalLen : Nat
  deriving DecidableEq, Repr

/-- A segment store as its callers see it. -/
structure SegmentStore where
  extents : AList fun _ : Key => Extent
  closed : Bool

namespace SegmentStore

/-- A store in a new directory. -/
def empty : SegmentStore := ⟨∅, false⟩

variable (s : SegmentStore)

/-- `Store.Write`: a known generation is acknowledged if the checksum is the same. -/
def write (k : Key) (data : List UInt8) : Except Err SegmentStore :=
  if s.closed then .error .storeClosed
  else
    match s.extents.lookup k with
    | some e => if e.checksum = crc32c data then .ok s else .error .staleGeneration
    | none => .ok { s with extents := s.extents.insert k (.live data) }

/-- `Store.Read` of the whole extent. -/
def read (k : Key) : Except Err (List UInt8 × UInt32) :=
  if s.closed then .error .storeClosed
  else
    match s.extents.lookup k with
    | some (.live data) => .ok (data, crc32c data)
    | some (.tombstoned _) | none => .error .extentNotFound

/-- `Store.Delete`: nothing to do for an absent extent. -/
def delete (k : Key) : Except Err SegmentStore :=
  if s.closed then .error .storeClosed
  else
    match s.extents.lookup k with
    | some e => .ok { s with extents := s.extents.insert k (.tombstoned e.data) }
    | none => .ok s

/-- `Store.Stat`, its logical length: also of a tombstone. -/
def stat (k : Key) : Except Err Nat :=
  if s.closed then .error .storeClosed
  else
    match s.extents.lookup k with
    | some e => .ok e.logicalLen
    | none => .error .extentNotFound

/-- The generations the store knows of an extent, in any state. -/
def generations (e : ExtentID) : List Generation :=
  (s.extents.keys.filter (·.1 = e)).map Prod.snd

/-- The latest of them. -/
def latest (e : ExtentID) : Option Generation :=
  (s.generations e).max?

/-- The extent as it is listed: its latest generation, unless that is a tombstone. -/
def listed (e : ExtentID) : Option LiveExtent :=
  match s.latest e with
  | none => none
  | some g =>
    match s.extents.lookup (e, g) with
    | some (.live data) => some ⟨e, g, (Extent.live data).logicalLen⟩
    | _ => none

/-- `Store.ListExtents`; the source enumerates a map, so callers may see any order. -/
def listExtents : Except Err (List LiveExtent) :=
  if s.closed then .error .storeClosed
  else .ok ((s.extents.keys.map Prod.fst).dedup.filterMap s.listed)

/-- `closeStore`. -/
def close : SegmentStore := { s with closed := true }

end SegmentStore

/-- `diskBackend`: a segment store with its accounting and its health. -/
structure DiskBackend where
  store : SegmentStore
  /-- The disk root, for data streams. -/
  dir : String
  usedByts : Int
  extCount : Int
  /-- Write failures since the last success. -/
  failCount : Nat

namespace DiskBackend

instance : Inhabited DiskBackend := ⟨⟨.empty, "", 0, 0, 0⟩⟩

/-- A backend around a store whose extents are counted. -/
def adopt (store : SegmentStore) (dir : String) (extents : List LiveExtent) : DiskBackend where
  store := store
  dir := dir
  usedByts := (extents.map fun e => (e.logicalLen : Int)).sum
  extCount := extents.length
  failCount := 0

end DiskBackend

/-- `diskHealthFailedThreshold`. -/
def diskHealthFailedThreshold : Nat := 5

/-- The placement loop: the fewest used bytes, the first of equals, some indexes skipped. -/
def leastUsed (skip : Nat → Bool) (backends : List DiskBackend) : Option Nat :=
  (backends.zipIdx.foldl
    (fun best b =>
      if skip b.2 then best
      else if b.1.usedByts < best.2 then (some b.2, b.1.usedByts)
      else best)
    ((none : Option Nat), (2 ^ 63 - 1 : Int))).1

end Nufs.Datanode
