/-
Extents of inodes of the new model, and chunks, on a leader.

A file keeps one extent in its row, or references in pages beside it.  A page is never
changed in place: it is written under the next root, and the row is switched to that root.
A page that did not change stands under an older root, so a page is read by walking the
roots back.
-/
import Nufs.Metadata.Namespace

namespace Nufs.Metadata

/-- `ExtentRoot` is an unsigned 64-bit number. -/
def nextRoot (root : Nat) : Nat := (root + 1) % 2 ^ 64

/-- `ExtentPageCount` and page numbers are unsigned 32-bit numbers. -/
def toPageNo (n : Nat) : Nat := n % 2 ^ 32

/-- The reference of the extent in a row, if there is one. -/
def InodeLayout.inlined : InodeLayout → List ExtentRef
  | inlineExtent ext => [⟨ext.id, 0⟩]
  | _ => []

/-! ### Reading pages -/

namespace Rows

variable (rows : Rows Value)

/-- `GetPage`. -/
def getPage (id : InodeID) (root pageNo : Nat) : Except ServiceErr (Option (List ExtentRef)) :=
  match rows.lookup (.extentPage id root pageNo) with
  | none => .ok none
  | some (.page extents) => .ok (some extents)
  | some _ => .error .malformed

/-- `ResolvePage`: the newest root that has the page. -/
def resolvePage (id : InodeID) (pageNo : Nat) : Nat → Except ServiceErr (Option (List ExtentRef))
  | 0 => .ok none
  | root + 1 => do
      match ← rows.getPage id (root + 1) pageNo with
      | some page => return some page
      | none => resolvePage id pageNo root

/-- `ExtentPageStore.ResolveExtents`. -/
def resolvePages (m : InodeMetaV2) : Except ServiceErr (List ExtentRef) := do
  let pages ← (List.range m.extentPageCount).mapM fun p => rows.resolvePage m.id p m.extentRoot
  return pages.flatMap fun page => page.getD []

/-- `InodeStoreV2.ResolveExtents`. -/
def resolveExtents (id : InodeID) : Except ServiceErr (List ExtentRef) := do
  match ← rows.inode id with
  | none => .error .inodeNotFound
  | some row =>
    match row.asV2.layout with
    | .empty => return []
    | .inlineExtent ext => return [⟨ext.id, 0⟩]
    | .extentPages => rows.resolvePages row.asV2

/-- The chunks a row references, in its own model. -/
def references : InodeRow → Except ServiceErr (List ChunkID)
  | .v1 m => .ok (m.chunkMap.map ChunkRef.id)
  | .v2 m => match m.layout with
    | .empty => .ok []
    | .inlineExtent ext => .ok [ext.id]
    | .extentPages => (rows.resolvePages m).map fun refs => refs.map ExtentRef.extentID

/-- The reference scan cannot read the row under an inode's key. -/
def unreadable (k : Key) : Bool :=
  match k, rows.lookup k with
  | .inode id, some (.inode row) => decide (row.asV1.id ≠ id) || !(rows.references row).isOk
  | .inode _, some _ => true
  | _, _ => false

/-- The row under an inode's key references a chunk. -/
def referencesChunk (chunkID : ChunkID) (k : Key) : Bool :=
  match k, rows.lookup k with
  | .inode _, some (.inode row) =>
    match rows.references row with
    | .ok ids => decide (chunkID ∈ ids)
    | .error _ => false
  | _, _ => false

/-- `stableInodeReferenceSnapshot`, asked for one chunk: a row that is unreadable fails it. -/
def referenced (chunkID : ChunkID) : Except ServiceErr Bool :=
  if ∃ k ∈ rows.keys, rows.unreadable k = true then .error .malformed
  else .ok (decide (∃ k ∈ rows.keys, rows.referencesChunk chunkID k = true))

end Rows

/-! ### Extents -/

/-- An extent and its place in the file (`ExtentWrite`). -/
structure ExtentWrite where
  extent : ExtentMeta
  offset : Int
  deriving DecidableEq, Repr

namespace Op

variable (cfg : Config)

/-- `writePage`. -/
def writePage (id : InodeID) (root pageNo : Nat) (extents : List ExtentRef) : Op Unit :=
  put cfg (.extentPage id root pageNo) (.page extents)

/-- `DeleteRoot`, which does not go through the log. -/
def deleteRoot (id : InodeID) (root : Nat) : Nat → Op Unit
  | 0 => pure ()
  | count + 1 => do
      deleteRoot id root count
      deleteLocal (.extentPage id root count)

/-- The pages of the old root go once the new row is durable. -/
def dropOldRoot (old : InodeMetaV2) (id : InodeID) : Op Unit :=
  if old.extentRoot ≠ 0 then deleteRoot id old.extentRoot old.extentPageCount else pure ()

/-- `putWithBucketStats`. -/
def putWithBucketStats (m : InodeMetaV2) (oldSize : Int) : Op Unit := do
  if ¬ cfg.useBucketStats then put cfg (.inode m.id) (.inode (.v2 m))
  else
    applyBatch cfg ((← rows).bucketStatsOp cfg m.bucketRoot (m.size - oldSize) 0 ++
      [.set (.inode m.id) (.inode (.v2 m))])

/-- A row that has to be there, read in the new model. -/
def asV2 : Option InodeRow → Op InodeMetaV2
  | none => fail .inodeNotFound
  | some row => pure row.asV2

/-- `InodeStoreV2.Get`, of an inode that has to be there. -/
def getV2 (id : InodeID) : Op InodeMetaV2 := do
  asV2 (← lift ((← rows).inode id))

/-- `InodeStoreV2.CreateEmpty`. -/
def createEmpty (id : InodeID) (type : FileType) (bucketRoot : InodeID) (now : Int) : Op Unit :=
  put cfg (.inode id) (.inode (.v2 ⟨id, type, 0, 0, bucketRoot, now, .empty, 0, 0⟩))

/-- `InodeStoreV2.SetInlineExtent`. -/
def setInlineRow (now : Int) (id : InodeID) (ext : ExtentMeta) (size : Int) : Op Unit := do
  let old ← getV2 id
  putWithBucketStats cfg { old with layout := .inlineExtent ext, size, ctime := now } old.size
  dropOldRoot old id

/-- `InodeStoreV2.PromoteToPages`. -/
def promoteToPages (now : Int) (id : InodeID) : Op Unit := do
  let old ← getV2 id
  let newRoot := nextRoot old.extentRoot
  writePage cfg id newRoot 0 old.layout.inlined
  put cfg (.inode old.id) (.inode (.v2 { old with
    layout := .extentPages, extentRoot := newRoot, extentPageCount := 1, ctime := now }))
  dropOldRoot old id

/-- `ExtentPageStore.AppendExtent`: whether a page was added. -/
def appendToPage (id : InodeID) (root pageNo : Nat) (ref : ExtentRef) : Op Bool := do
  let rows ← rows
  match ← lift (rows.resolvePage id pageNo root) with
  | some page =>
    if maxExtentsPerPage ≤ page.length then
      writePage cfg id (nextRoot root) (toPageNo (pageNo + 1)) [ref]
      return true
    else
      let page := (← lift (rows.getPage id root pageNo)).getD []
      writePage cfg id (nextRoot root) pageNo (page ++ [ref])
      return false
  | none =>
    let page := (← lift (rows.getPage id root pageNo)).getD []
    writePage cfg id (nextRoot root) pageNo (page ++ [ref])
    return false

/-- An inode that is appended to is in page mode. -/
def ensurePages (now : Int) (id : InodeID) : Op Unit := do
  let old ← getV2 id
  if old.layout ≠ .extentPages then promoteToPages cfg now id else pure ()

/-- `InodeStoreV2.AppendExtent`. -/
def appendRow (now : Int) (id : InodeID) (ref : ExtentRef) (extentSize : Int) : Op Unit := do
  ensurePages cfg now id
  let old ← getV2 id
  let created ← appendToPage cfg id old.extentRoot (old.extentPageCount - 1) ref
  putWithBucketStats cfg { old with
    extentPageCount := if created then toPageNo (old.extentPageCount + 1) else old.extentPageCount,
    extentRoot := nextRoot old.extentRoot, size := old.size + extentSize, ctime := now } old.size

/-- The references of page `p`: at most `MaxExtentsPerPage` of them. -/
def pageOf (writes : List ExtentWrite) (p : Nat) : List ExtentRef :=
  ((writes.drop (p * maxExtentsPerPage)).take maxExtentsPerPage).map fun w =>
    ⟨w.extent.id, w.offset⟩

/-- How many pages writes take. -/
def pageCountOf (writes : List ExtentWrite) : Nat :=
  toPageNo ((writes.length + maxExtentsPerPage - 1) / maxExtentsPerPage)

/-- The pages of a fresh root, one after the other. -/
def writePages (id : InodeID) (root : Nat) (writes : List ExtentWrite) : Nat → Op Unit
  | 0 => pure ()
  | count + 1 => do
      writePages id root writes count
      writePage cfg id root count (pageOf writes count)

/-- `InodeStoreV2.ReplaceExtents`. -/
def replaceRows (now : Int) (id : InodeID) (writes : List ExtentWrite) (size : Int) : Op Unit := do
  let old ← getV2 id
  let newRoot := nextRoot old.extentRoot
  writePages cfg id newRoot writes (pageCountOf writes)
  putWithBucketStats cfg { old with
    layout := .extentPages, extentRoot := newRoot, extentPageCount := pageCountOf writes,
    size, ctime := now } old.size
  dropOldRoot old id

/-- `putExtentMeta`. -/
def putExtentMeta (ext : ExtentMeta) : Op Unit := put cfg (.extentMeta ext.id) (.extent ext)

/-- The rows of the extents of writes, one after the other. -/
def putExtentMetas : List ExtentWrite → Op Unit
  | [] => pure ()
  | w :: writes => do
      putExtentMeta cfg w.extent
      putExtentMetas writes

/-- `SetInlineExtent`. -/
def setInlineExtent (now : Int) (id : InodeID) (ext : ExtentMeta) (size : Int) : Op Unit := do
  putExtentMeta cfg ext
  setInlineRow cfg now id ext size

/-- `AppendExtent`. -/
def appendExtent (now : Int) (id : InodeID) (ext : ExtentMeta) (offset : Int) : Op Unit := do
  putExtentMeta cfg ext
  appendRow cfg now id ⟨ext.id, offset⟩ ext.logicalLen

/-- `ReplaceExtents`. -/
def replaceExtents (now : Int) (id : InodeID) (writes : List ExtentWrite) (size : Int) :
    Op Unit := do
  putExtentMetas cfg writes
  replaceRows cfg now id writes size

/-! ### Chunks -/

/-- A fenced batch. -/
def fenced (preconditions : List (Precondition Value)) (mutations : List (BatchOp Value)) :
    ConditionalBatch Value := ⟨4, 0, preconditions, mutations, []⟩

/-- `buildChunkAllocationConditional`: the inode is rewritten in the old model. -/
def allocationBatch (rows : Rows Value) (id : InodeID) (row : InodeRow) (offsets : List Int)
    (ids : List ChunkID) (replicas : Nat) : Except ServiceErr (ConditionalBatch Value) :=
  let m := row.asV1
  let refs := (ids.zip offsets).map fun p => (⟨p.1, p.2, 0⟩ : ChunkRef)
  let ops := (ids.map fun c => BatchOp.set (.chunk c) (.chunk ⟨c, .created, replicas⟩)) ++
    [.set (.inode id) (.inode (.v1 { m with chunkMap := m.chunkMap ++ refs }))]
  match Fsm.prepareReferenceAwareBatch cfg.codec rows ops with
  | .error e => .error (.fsm e)
  | .ok _ =>
    .ok (fenced (⟨.inode id, some (.inode row)⟩ ::
      ids.flatMap fun c => [⟨.chunk c, none⟩, ⟨.tombstone c, none⟩]) ops)

/-- `allocateChunksConditionally`, with the numbers each of its attempts gets. -/
def allocateChunks (id : InodeID) (offsets : List Int) (replicas : Nat) :
    List (List ChunkID) → Op Unit
  | [] => fail .conflict
  | ids :: attempts => do
      if maxChunkAllocationBatch < offsets.length then fail .invalidArgument
      else
        let rows ← rows
        match ← lift (rows.inode id) with
        | none => fail .inodeNotFound
        | some row =>
          if row.asV1.id ≠ id then fail (.fsm .identity)
          else
            let batch ← lift (allocationBatch cfg rows id row offsets ids replicas)
            match ← (applyConditional cfg batch .conflict).attempt with
            | .error .conflict => allocateChunks id offsets replicas attempts
            | r => lift r

/-- `updateLiveChunkMetadata`. -/
def updateLiveChunk (old new : ChunkMeta) : Op Unit :=
  if new.id = 0 then fail .invalidArgument
  else
    applyConditional cfg
      (fenced [⟨.chunk new.id, some (.chunk old)⟩, ⟨.tombstone new.id, none⟩]
        [.set (.chunk new.id) (.chunk new)]) .conflict

/-- A chunk that has to be there. -/
def getChunk (id : ChunkID) : Op ChunkMeta := do
  match ← lift ((← rows).chunk id) with
  | none => fail .chunkNotFound
  | some chunk => return chunk

/-- `CommitChunk`. -/
def commitChunk (id : ChunkID) : Op Unit := do
  let chunk ← getChunk id
  if chunk.state = .created then updateLiveChunk cfg chunk { chunk with state := .sealed }
  else fail .chunkAlreadySealed

/-- `UpdateChunk`. -/
def updateChunk (new : ChunkMeta) : Op Unit := do
  let chunk ← getChunk new.id
  updateLiveChunk cfg chunk new

/-- `SealChunk`. -/
def sealChunk (id : ChunkID) : Op Unit := do
  let chunk ← getChunk id
  match chunk.state with
  | .ready => return ()
  | .sealed => updateLiveChunk cfg chunk { chunk with state := .ready }
  | .created => fail .chunkNotSealed

/-- The epoch as a precondition. -/
def epochPrecondition (rows : Rows Value) : Precondition Value := ⟨.epoch, rows.lookup .epoch⟩

/-- `DeleteChunk`: a tombstone for a chunk that no inode references. -/
def deleteChunk (id : ChunkID) : Op Unit := do
  let rows ← rows
  let referenced ← lift (rows.referenced id)
  match rows.lookup (.tombstone id) with
  | some _ => if referenced then fail .referenced else return ()
  | none =>
    if referenced then return ()
    else
      match ← lift (rows.chunk id) with
      | none => return ()
      | some chunk =>
        if chunk.id ≠ id then fail .malformed
        else
          match ← (applyConditional cfg (fenced [epochPrecondition rows,
              ⟨.chunk id, some (.chunk chunk)⟩, ⟨.tombstone id, none⟩]
            [.set (.tombstone id) (.tombstone id chunk.replicas)]) .conflict).attempt with
          | .error .conflict =>
            let rows ← Op.rows
            if (rows.lookup (.tombstone id)).isSome then return ()
            else fail .conflict
          | r => lift r

/-- `keyBackupCatalog`. -/
def keyBackupCatalog : Key := .other "backup/catalog-state".toList

/-- `PurgeChunk`, with the row of the backup catalogue that allows it. -/
def purgeChunk (id : ChunkID) (catalog : Value) : Op Unit := do
  let rows ← rows
  if ← lift (rows.referenced id) then fail .referenced
  else
    match rows.lookup (.chunk id), rows.lookup (.tombstone id) with
    | none, none => return ()
    | some chunk, some tombstone =>
      applyConditional cfg (fenced [epochPrecondition rows, ⟨keyBackupCatalog, some catalog⟩,
          ⟨.chunk id, some chunk⟩, ⟨.tombstone id, some tombstone⟩]
        [.delete (.chunk id), .delete (.tombstone id)]) .conflict
    | _, _ => fail .malformed

end Op

end Nufs.Metadata
