/-
The usage of a bucket, computed by a scan of the whole store.

The scan takes the names below the root of the bucket.  A name of a file counts one object,
with the bytes the file's extents say, and a directory is walked in turn.  An entry with an
empty name, or one that does not decode, is passed by.
-/
import Mathlib.Algebra.BigOperators.Group.Finset.Basic
import Nufs.Metadata.FileChunks

namespace Nufs.Metadata

namespace Rows

variable (rows : Rows Value)

/-- The lengths of extents, added up from the rows of the extents. -/
def extentBytes (refs : List ExtentRef) : Except ServiceErr Int := do
  let extents ← refs.mapM fun ref => rows.getExtentMeta ref.extentID
  return (extents.map ExtentMeta.logicalLen).sum

/-- `extentBytesForInode`: an extent that is missing leaves the size of the row. -/
def extentBytesForInode (m : InodeMetaV2) : Int :=
  match m.layout with
  | .empty => m.size
  | .inlineExtent ext => ext.logicalLen
  | .extentPages =>
    match rows.resolvePages m >>= rows.extentBytes with
    | .ok total => total
    | .error _ => m.size

/-- `sizes`, where an inode without a row has no bytes. -/
def usedBytes (id : InodeID) : Int :=
  match rows.inode id with
  | .ok (some row) => rows.extentBytesForInode row.asV2
  | _ => 0

/-- `children`: the entry a key has in a directory. -/
def childIn (dir : InodeID) (k : Key) : Option DirEntry :=
  match k, rows.lookup k with
  | .ns parent name, some (.entry e) => if parent = dir ∧ name ≠ [] then some e else none
  | _, _ => none

/-- Bytes and objects of an entry, where a directory has those of the walk below it. -/
def entryUsage (walk : InodeID → Option (Int × Int)) : Option DirEntry → Option (Int × Int)
  | none => some 0
  | some e => if e.type = .directory then walk e.inodeID else some (rows.usedBytes e.inodeID, 1)

/-- `walkUsageTree`, with a bound on its depth: the walk of a cycle has no end. -/
def walkUsageTree : Nat → InodeID → Option (Int × Int)
  | 0, _ => none
  | depth + 1, dir =>
    let usage := fun k => rows.entryUsage (walkUsageTree depth) (rows.childIn dir k)
    if ∀ k ∈ rows.keys, (usage k).isSome then some (∑ k ∈ rows.keys, (usage k).getD 0) else none

end Rows

end Nufs.Metadata
