/-
`Store.Read`: find the location of an extent, open its segment and read its frames.

The location cache is asked before the overlay and the index.  The cache of open
segment files is not part of the model: every read opens the file it needs.
-/
import Nufs.Storage.Open
import Nufs.Storage.Reader

namespace Nufs.Storage

open ByteFile

namespace Store

/-- `Store.cachedLookup`: the cache first; a location found elsewhere is put into it. -/
def cachedLookup (k : Key) (s : Store) : Except Err Value × Store :=
  match s.locCache.lookup k with
  | some v => (.ok v, s)
  | none =>
    match s.lookup k with
    | none => (.error .extentNotFound, s)
    | some v => (.ok v, { s with locCache := s.locCache.insert k v })

/-- The reader of a segment. -/
def openSegment (c : FrameCodec) (segID : SegmentID) (s : Store) : Except Err Reader :=
  match s.files.lookup segID with
  | none => .error .ioError
  | some file => Reader.openReaderWithEnc false c.registry file.bytes

/-- `Store.Read` behind the lookup: the bytes, and the checksum of the location. -/
def readLocated (c : FrameCodec) (v : Value) (logicalOffset length : Int) (s : Store) :
    Except Err (List UInt8 × UInt32) :=
  if v.state = .tombstoned then .error .extentNotFound
  else if v.state = .corrupt then .error .quarantined
  else
    match s.openSegment c v.segmentID with
    | .error _ => .error (.segmentUnavailable "")
    | .ok rd =>
      (if 0 < length then
        rd.readRangeFrames c v.offset v.storedLen v.logicalLen logicalOffset length
      else rd.readPayloadFrames c v.offset v.storedLen v.logicalLen).map fun data =>
        (data, v.checksum)

/-- `Store.Read`. -/
def read (c : FrameCodec) (k : Key) (logicalOffset length : Int) (s : Store) :
    Except Err (List UInt8 × UInt32) × Store :=
  match s.cachedLookup k with
  | (.error e, s) => (.error e, s)
  | (.ok v, s) => (s.readLocated c v logicalOffset length, s)

end Store

end Nufs.Storage
