/-
The namespace and the inodes of the metadata service.

An operation reads what it needs and builds one batch; what it read is a precondition of
the batch only for the name it is about.  The reading half is a definition of its own, so
that operations can be looked at between their halves.
-/
import Nufs.Metadata.Service

namespace Nufs.Metadata

/-- `MaxNameLength`. -/
def maxNameLength : Nat := 255

/-- `RootInodeID`. -/
def rootInodeID : InodeID := 1

/-- A number `nextInodeID` gave, and whether it came from the free list. -/
structure Mint where
  id : InodeID
  recycled : Bool

/-- The preconditions of a create: the name and the number are free. -/
def createPreconditions (parent : InodeID) (name : List Char) (id : InodeID) :
    List (Precondition Value) :=
  [⟨.ns parent name, none⟩, ⟨.inode id, none⟩]

/-- The batch of `CreateFile` and `Symlink`, which counts the bytes of its target. -/
def createFileBatch (cfg : Config) (rows : Rows Value) (type : FileType) (statBytes : Int)
    (bucketRoot parent : InodeID) (name : List Char) (now : Int) (id : InodeID) :
    ConditionalBatch Value where
  version := 1
  expectedRaftTerm := 0
  preconditions := createPreconditions parent name id
  mutations :=
    [.set (.inode id) (.inode (.v1 ⟨id, type, 0, 1, bucketRoot, now, []⟩)),
      .set (.ns parent name) (.entry ⟨id, type, name⟩)] ++
      rows.bucketStatsOp cfg bucketRoot statBytes 1
  prefixReplacements := []

/-- The batch of `MkDir`: the parent has one link more. -/
def mkDirBatch (rows : Rows Value) (parent : InodeID) (name : List Char) (now : Int)
    (id : InodeID) : ConditionalBatch Value where
  version := 1
  expectedRaftTerm := 0
  preconditions := createPreconditions parent name id
  mutations :=
    let made := fun bucketRoot : InodeID =>
      [.set (.inode id) (.inode (.v1 ⟨id, .directory, 0, 2, bucketRoot, now, []⟩)),
        .set (.ns parent name) (.entry ⟨id, .directory, name⟩)]
    match rows.inode parent with
    | .ok (some row) =>
      let p := row.asV1
      made p.bucketRoot ++ [.set (.inode parent) (.inode (.v1 { p with nlink := p.nlink + 1 }))]
    | _ => made 0
  prefixReplacements := []

/-- A row with another count of links, in its own model. -/
def InodeRow.withNLink (row : InodeRow) (nlink : UInt32) : InodeRow :=
  if row.asV2.layout ≠ .empty then .v2 { row.asV2 with nlink } else .v1 { row.asV1 with nlink }

/-- The batch of `Unlink`, and the inode that goes with the last link. -/
def unlinkBatch (cfg : Config) (rows : Rows Value) (parent : InodeID) (name : List Char) :
    Except ServiceErr (ConditionalBatch Value × Option InodeID) := do
  match ← rows.entry parent name with
  | none => .error .entryNotFound
  | some entry =>
    if entry.type = .directory then .error .notFile
    else
      let batch := fun mutations : List (BatchOp Value) =>
        (⟨1, 0, [⟨.ns parent name, some (.entry entry)⟩], mutations, []⟩ : ConditionalBatch Value)
      match ← rows.inode entry.inodeID with
      | none => return (batch [.delete (.ns parent name)], none)
      | some row =>
        let v2 := row.asV2
        let nlink := v2.nlink - 1
        if nlink = 0 then
          return (batch (rows.bucketStatsOp cfg v2.bucketRoot (-v2.size) (-1) ++
            [.delete (.ns parent name), .delete (.inode entry.inodeID)]), some v2.id)
        else
          return (batch [.set (.inode entry.inodeID) (.inode (row.withNLink nlink)),
            .delete (.ns parent name)], none)

/-- The batch of `RmDir`, and the inode of the directory. -/
def rmDirBatch (rows : Rows Value) (parent : InodeID) (name : List Char) :
    Except ServiceErr (ConditionalBatch Value × InodeID) := do
  match ← rows.entry parent name with
  | none => .error .entryNotFound
  | some entry =>
    if entry.type ≠ .directory then .error .notDirectory
    else if rows.hasChildren entry.inodeID then .error .dirNotEmpty
    else
      let deletes := [.delete (.inode entry.inodeID), .delete (.ns parent name)]
      let ops := match rows.inode parent with
        | .ok (some row) =>
          let p := row.asV1
          let nlink := if p.nlink > 0 then p.nlink - 1 else p.nlink
          [.set (.inode parent) (.inode (.v1 { p with nlink }))]
        | _ => []
      return (⟨1, 0, [⟨.ns parent name, some (.entry entry)⟩], ops ++ deletes, []⟩, entry.inodeID)

/-- The batch of `Link`. -/
def linkBatch (rows : Rows Value) (parent : InodeID) (name : List Char) (target : InodeID)
    (now : Int) : Except ServiceErr (ConditionalBatch Value) := do
  match ← rows.inode target with
  | none => .error .inodeNotFound
  | some row =>
    let v2 := row.asV2
    if v2.type = .directory then .error .invalidArgument
    else
      let linked := match row.withNLink (v2.nlink + 1) with
        | .v1 m => InodeRow.v1 { m with ctime := now }
        | .v2 m => InodeRow.v2 { m with ctime := now }
      return ⟨1, 0, [⟨.ns parent name, none⟩],
        [.set (.inode target) (.inode linked),
          .set (.ns parent name) (.entry ⟨target, v2.type, name⟩)], []⟩

/-- The batch of `Rename`, once nothing stands at the destination. -/
def renameBatch (entry : DirEntry) (oldParent : InodeID) (oldName : List Char) (newParent : InodeID)
    (newName : List Char) : List (BatchOp Value) :=
  [.set (.ns newParent newName) (.entry { entry with name := newName }),
    .delete (.ns oldParent oldName)]

/-- The batch of `UpdateInode`: on a row of the new model only the attributes change. -/
def updateInodeBatch (cfg : Config) (rows : Rows Value) (now : Int) (m : InodeMeta) :
    Except ServiceErr (List (BatchOp Value)) := do
  let m := { m with ctime := now }
  match ← rows.inode m.id with
  | none => return [.set (.inode m.id) (.inode (.v1 m))]
  | some row =>
    let v2 := row.asV2
    if v2.layout = .empty then
      return rows.bucketStatsOp cfg v2.bucketRoot (m.size - v2.size) 0 ++
        [.set (.inode m.id) (.inode (.v1 m))]
    else if m.chunkMap ≠ [] then .error .inodeModelMismatch
    else
      return rows.bucketStatsOp cfg m.bucketRoot (m.size - v2.size) 0 ++
        [.set (.inode m.id) (.inode (.v2 { v2 with
          size := m.size, nlink := m.nlink, bucketRoot := m.bucketRoot, ctime := now }))]

namespace Op

variable (cfg : Config)

/-- `nextInodeID`: a recycled number leaves the free list. -/
def nextInodeID (mint : Mint) : Op InodeID :=
  if mint.recycled then do
    let _ ← (deleteKey cfg (.freeList mint.id)).attempt
    return mint.id
  else pure mint.id

/-- `releaseInodeID`; the free list may be full. -/
def releaseInodeID (full : Bool) (id : InodeID) : Op Unit :=
  if rootInodeID < id ∧ ¬ full then do
    let _ ← (put cfg (.freeList id) (.inodeID id)).attempt
  else pure ()

/-- `applyNamespaceCreate`: a create is tried again, with another number. -/
def applyNamespaceCreate (mint retry : Mint)
    (batch : Rows Value → InodeID → ConditionalBatch Value) : Op InodeID := do
  let id ← nextInodeID cfg mint
  match ← (applyConditional cfg (batch (← rows) id) .entryExists).attempt with
  | .ok _ => return id
  | .error .entryExists =>
    let id ← nextInodeID cfg retry
    applyConditional cfg (batch (← rows) id) .entryExists
    return id
  | .error e => fail e

section

variable (parent : InodeID)

/-- `CreateFile`. -/
def createFile (name : List Char) (now : Int) (mint retry : Mint) :
    Op InodeID := do
  if maxNameLength < name.length then fail .nameTooLong
  else
    let bucketRoot := (← rows).bucketRoot parent
    applyNamespaceCreate cfg mint retry fun rows =>
      createFileBatch cfg rows .regular 0 bucketRoot parent name now

/-- `Symlink`. -/
def symlink (name target : List Char) (now : Int) (mint retry : Mint) :
    Op InodeID := do
  let bucketRoot := (← rows).bucketRoot parent
  applyNamespaceCreate cfg mint retry fun rows =>
    createFileBatch cfg rows .symlink target.length bucketRoot parent name now

/-- `MkDir`. -/
def mkDir (name : List Char) (now : Int) (mint retry : Mint) : Op InodeID :=
  if maxNameLength < name.length then fail .nameTooLong
  else applyNamespaceCreate cfg mint retry fun rows => mkDirBatch rows parent name now

/-- `Unlink`. -/
def unlink (name : List Char) (full : Bool) : Op Unit := do
  let (batch, gone) ← lift (unlinkBatch cfg (← rows) parent name)
  applyConditional cfg batch .entryNotFound
  match gone with
  | none => return ()
  | some id => releaseInodeID cfg full id

/-- `RmDir`. -/
def rmDir (name : List Char) (full : Bool) : Op Unit := do
  let (batch, id) ← lift (rmDirBatch (← rows) parent name)
  applyConditional cfg batch .entryNotFound
  releaseInodeID cfg full id

/-- `Link`. -/
def link (name : List Char) (target : InodeID) (now : Int) : Op Unit := do
  let batch ← lift (linkBatch (← rows) parent name target now)
  applyConditional cfg batch .entryExists

end

/-- What stands at the destination of a `Rename` is unlinked, in a batch of its own. -/
def clearDestination (newParent : InodeID) (newName : List Char) (full : Bool) : Op Unit := do
  match (← rows).entry newParent newName with
  | .ok (some dest) =>
    if dest.type = .directory then fail .entryExists else unlink cfg newParent newName full
  | _ => pure ()

/-- `Rename`. -/
def rename (oldParent : InodeID) (oldName : List Char) (newParent : InodeID) (newName : List Char)
    (full : Bool) : Op Unit := do
  match ← lift ((← rows).entry oldParent oldName) with
  | none => fail .entryNotFound
  | some entry =>
    clearDestination cfg newParent newName full
    let rows ← rows
    if cfg.useBucketStats ∧ rows.bucketRoot oldParent ≠ rows.bucketRoot newParent then
      fail .crossBucketRename
    else applyBatch cfg (renameBatch entry oldParent oldName newParent newName)

/-- `UpdateInode`. -/
def updateInode (now : Int) (m : InodeMeta) : Op Unit := do
  applyBatch cfg (← lift (updateInodeBatch cfg (← rows) now m))

end Op

end Nufs.Metadata
