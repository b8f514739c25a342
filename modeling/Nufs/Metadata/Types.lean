/-
Inodes, chunks and extents as the metadata service stores them.

A file's data is described in one of two models under one key: the old one lists the
file's chunks in the inode, the new one keeps an extent in the inode or extent
references in pages beside it.  A row written by one model can be decoded as the other;
the fields the other model does not know are lost then.
-/
import Mathlib.Algebra.Ring.Nat
import Mathlib.Data.List.AList

namespace Nufs.Metadata

/-- `InodeID`; zero names no inode. -/
abbrev InodeID := UInt64

/-- `ChunkID`; an extent and the chunk that holds its data have the same number. -/
abbrev ChunkID := UInt64

/-- `MaxChunkSize`. -/
def maxChunkSize : Nat := 64 * 1024 * 1024

/-- `MaxInlineExtentSize`. -/
def maxInlineExtentSize : Int := 16 * 1024 * 1024

/-- `MaxExtentsPerPage`. -/
def maxExtentsPerPage : Nat := 256

/-- `MaxChunkAllocationBatch`. -/
def maxChunkAllocationBatch : Nat := 1024

/-- `FileType`. -/
inductive FileType
  | regular
  | directory
  | symlink
  deriving DecidableEq, Repr

/-- `ChunkRef`: a part of a file, and the chunk that holds it. -/
structure ChunkRef where
  id : ChunkID
  offset : Int
  length : Int
  deriving DecidableEq, Repr

/-- `InodeMeta`: the old model. -/
structure InodeMeta where
  id : InodeID
  type : FileType
  size : Int
  nlink : UInt32
  bucketRoot : InodeID
  ctime : Int
  chunkMap : List ChunkRef
  deriving DecidableEq, Repr

/-- `ExtentMetaV2`. -/
structure ExtentMeta where
  id : ChunkID
  logicalLen : Int
  deriving DecidableEq, Repr

/-- `ExtentRef`. -/
structure ExtentRef where
  extentID : ChunkID
  logicalOffset : Int
  deriving DecidableEq, Repr

/-- `InodeLayout`, with the extent of an inline one. -/
inductive InodeLayout
  | empty
  | inlineExtent (extent : ExtentMeta)
  | extentPages
  deriving DecidableEq, Repr

/-- `InodeMetaV2`: the new model. -/
structure InodeMetaV2 where
  id : InodeID
  type : FileType
  size : Int
  nlink : UInt32
  bucketRoot : InodeID
  ctime : Int
  layout : InodeLayout
  extentRoot : Nat
  extentPageCount : Nat
  deriving DecidableEq, Repr

/-- What stands under an inode's key. -/
inductive InodeRow
  | v1 (inode : InodeMeta)
  | v2 (inode : InodeMetaV2)
  deriving DecidableEq, Repr

namespace InodeRow

/-- Decoded as `InodeMeta`: a row of the new model has no chunks. -/
def asV1 : InodeRow → InodeMeta
  | v1 m => m
  | v2 m => ⟨m.id, m.type, m.size, m.nlink, m.bucketRoot, m.ctime, []⟩

/-- Decoded as `InodeMetaV2`: a row of the old model has an empty layout. -/
def asV2 : InodeRow → InodeMetaV2
  | v1 m => ⟨m.id, m.type, m.size, m.nlink, m.bucketRoot, m.ctime, .empty, 0, 0⟩
  | v2 m => m

end InodeRow

/-- `ChunkState`. -/
inductive ChunkState
  | created
  | sealed
  | ready
  deriving DecidableEq, Repr

/-- `ChunkMeta`. -/
structure ChunkMeta where
  id : ChunkID
  state : ChunkState
  /-- How many replicas the chunk has. -/
  replicas : Nat
  deriving DecidableEq, Repr

end Nufs.Metadata
