/-
The chunks of a file, committed and read back whichever model the file is in.

A service with extents lands the chunks of a file in the new model: one chunk of a small
file as the extent in the row, any other list as pages.  A reader asks the old model first
and takes the length of an extent from the extent's own row.
-/
import Nufs.Lib.Word
import Nufs.Metadata.Extents
import Nufs.Metadata.Store

namespace Nufs.Metadata

namespace Rows

variable (rows : Rows Value)

/-- `GetExtentMeta`. -/
def getExtentMeta (id : ChunkID) : Except ServiceErr ExtentMeta :=
  match rows.lookup (.extentMeta id) with
  | none => .error .extentNotFound
  | some (.extent ext) => .ok ext
  | some _ => .error .malformed

/-- A reference with the length the extent's row gives, as a 32-bit number. -/
def refOfExtent (ref : ExtentRef) : Except ServiceErr ChunkRef := do
  let ext ← rows.getExtentMeta ref.extentID
  return ⟨ref.extentID, ref.logicalOffset, Word.int32 ext.logicalLen⟩

/-- `ResolveFileChunks`, on a service with extents. -/
def resolveFileChunks (inode : InodeMeta) : Except ServiceErr (List ChunkRef) :=
  if inode.chunkMap ≠ [] then .ok inode.chunkMap
  else do
    let refs ← rows.resolveExtents inode.id
    refs.mapM rows.refOfExtent

end Rows

/-- `extentForRef`, at the place of the reference. -/
def writeForRef (ref : ChunkRef) : ExtentWrite := ⟨Store.extentForRef ref, ref.offset⟩

namespace Op

variable (cfg : Config)

/-- The probe of `CommitChunkRefsModelAware`: an inode without chunks that has extents. -/
def isV2 (inode : InodeMeta) : Op Bool := do
  if inode.chunkMap ≠ [] then return false
  else
    let refs ← lift ((← rows).resolveExtents inode.id)
    return decide (refs ≠ [])

/-- A single chunk of a small file is inlined, anything else is written as pages. -/
def commitExtents (now : Int) (id : InodeID) (size : Int) : List ChunkRef → Op Unit
  | [ref] =>
    if size ≤ maxInlineExtentSize then setInlineExtent cfg now id (Store.extentForRef ref) size
    else replaceExtents cfg now id [writeForRef ref] size
  | refs => replaceExtents cfg now id (refs.map writeForRef) size

/-- `CommitChunkRefsModelAware`, on a service with extents. -/
def commitChunkRefsModelAware (now : Int) (inode : InodeMeta) (newRefs : List ChunkRef)
    (size : Int) : Op Unit := do
  let isV2 ← isV2 inode
  if isV2 = true ∨ newRefs ≠ [] then commitExtents cfg now inode.id size newRefs
  else updateInode cfg now { inode with size, chunkMap := newRefs }

end Op

end Nufs.Metadata
