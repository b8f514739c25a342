/-
When a rename is all or nothing.

`Rename` unlinks what stands at the destination in a batch of its own, before the last
check and before the batch that moves the entry.  So a rename that is refused after that
has lost the destination, one that names the same entry twice has lost the entry, and one
between two links of an inode has lost the inode, if the inode counts one link.  These
are all the ways: `renameSafe` excludes them, and nothing else is needed.
-/
import Nufs.Proofs.Metadata.FileChunks
import Nufs.Proofs.Metadata.Namespace

namespace Nufs.Metadata

open ExceptBind Finmap Op Option

variable {cfg : Config}

/-! ### What a rename is for -/

/-- What a reader of an inode finds: its type, its size and its chunks. -/
def Rows.readFile (rows : Rows Value) (id : InodeID) :
    Except ServiceErr (Option (FileType × Int × List ChunkRef)) := do
  match ← rows.inode id with
  | none => return none
  | some row =>
    let chunks ← rows.resolveFileChunks { row.asV1 with id }
    return some (row.asV1.type, row.asV1.size, chunks)

/-- Names and inodes are as they were. -/
structure Untouched (rows rows' : Rows Value) : Prop where
  entries : ∀ p n, rows'.lookup (.ns p n) = rows.lookup (.ns p n)
  inodes : ∀ id, rows'.lookup (.inode id) = rows.lookup (.inode id)

/-- The entry stands under its new name only, with its content, and the other entries stay. -/
structure Renamed (rows rows' : Rows Value) (oldParent : InodeID) (oldName : List Char)
    (newParent : InodeID) (newName : List Char) (entry : DirEntry) : Prop where
  there : rows'.lookup (.ns newParent newName) = some (.entry { entry with name := newName })
  left : (oldParent, oldName) ≠ (newParent, newName) → rows'.lookup (.ns oldParent oldName) = none
  others : ∀ p n, (p, n) ≠ (oldParent, oldName) → (p, n) ≠ (newParent, newName) →
    rows'.lookup (.ns p n) = rows.lookup (.ns p n)
  content : rows'.readFile entry.inodeID = rows.readFile entry.inodeID

/-- An answer with the rows after it: an error changes nothing, a success is a rename. -/
def AllOrNothing (rows : Rows Value) (oldParent : InodeID) (oldName : List Char)
    (newParent : InodeID) (newName : List Char) : Except ServiceErr Unit × Leader → Prop
  | (.error _, l') => Untouched rows l'.rows
  | (.ok _, l') => ∃ entry, rows.lookup (.ns oldParent oldName) = some (.entry entry) ∧
      Renamed rows l'.rows oldParent oldName newParent newName entry

/-! ### When it does what it is for -/

/-- The inode under a number counts one link. -/
def Rows.lastLink (rows : Rows Value) (id : InodeID) : Bool :=
  match rows.inode id with
  | .ok (some row) => decide (row.asV2.nlink = 1)
  | _ => false

/-- The bucket of a directory once a link of an inode is gone. -/
def Rows.bucketRootWithout (rows : Rows Value) (id parent : InodeID) : InodeID :=
  if parent = id ∧ rows.lastLink id = true then 0 else rows.bucketRoot parent

/--
If a file at the destination is unlinked, it is not the source, the directories are of one
bucket, and the source is not another name of an inode that counts one link.
-/
def RenameSafe (cfg : Config) (rows : Rows Value) (oldParent : InodeID) (oldName : List Char)
    (newParent : InodeID) (newName : List Char) : Prop :=
  ∀ entry dest, rows.lookup (.ns oldParent oldName) = some (.entry entry) →
    rows.lookup (.ns newParent newName) = some (.entry dest) →
    Unlinkable cfg rows newParent newName →
    (oldParent, oldName) ≠ (newParent, newName) ∧
      (cfg.useBucketStats = true → rows.bucketRootWithout dest.inodeID oldParent =
        rows.bucketRootWithout dest.inodeID newParent) ∧
      (dest.inodeID = entry.inodeID → rows.lastLink dest.inodeID = false)

/-! ### Content -/

/-- Pages and extents stand as they stood. -/
structure SameData (rows rows' : Rows Value) : Prop where
  pages : ∀ id r p, rows'.lookup (.extentPage id r p) = rows.lookup (.extentPage id r p)
  extents : ∀ id, rows'.lookup (.extentMeta id) = rows.lookup (.extentMeta id)

variable {rows rows' : Rows Value} {id oldParent newParent : InodeID} {row : InodeRow}
  {oldName newName : List Char} {entry : DirEntry}

theorem SameData.refOfExtent (h : SameData rows rows') : rows'.refOfExtent = rows.refOfExtent := by
  funext ref
  unfold Rows.refOfExtent Rows.getExtentMeta
  rw [h.extents]

/-- A row that says the same is read the same. -/
theorem SameData.readFile {row' : InodeRow} (h : SameData rows rows') (hrow : rows.HasInode id row)
    (hrow' : rows'.HasInode id row')
    (htype : row'.asV1.type = row.asV1.type) (hsize : row'.asV1.size = row.asV1.size)
    (hmap : row'.asV1.chunkMap = row.asV1.chunkMap)
    (hextents : rows'.resolveExtents id = rows.resolveExtents id) :
    rows'.readFile id = rows.readFile id := by
  have hchunks : rows'.resolveFileChunks { row'.asV1 with id } =
      rows.resolveFileChunks { row.asV1 with id } := by
    unfold Rows.resolveFileChunks
    rw [hmap, hextents, h.refOfExtent]
  have hread : ∀ {rows : Rows Value} {row : InodeRow}, rows.HasInode id row →
      rows.readFile id = (rows.resolveFileChunks { row.asV1 with id } >>= fun chunks =>
        pure (some (row.asV1.type, row.asV1.size, chunks))) := by
    intro rows row hrow
    unfold Rows.readFile
    rw [inode_of_lookup hrow]
    rfl
  rw [hread hrow, hread hrow', hchunks, htype, hsize]

/-- An inode whose row stays. -/
theorem SameData.readFile_of_row (h : SameData rows rows')
    (hrow : rows'.lookup (.inode id) = rows.lookup (.inode id)) :
    rows'.readFile id = rows.readFile id := by
  by_cases hfound : ∃ row, rows.HasInode id row
  · obtain ⟨row, hfound⟩ := hfound
    have hsame : SameExtents row row := ⟨rfl, rfl, rfl, rfl⟩
    exact h.readFile hfound (hrow.trans hfound) rfl rfl rfl
      (hsame.resolveExtents hfound (hrow.trans hfound) h.pages)
  have hnone : ∀ row, rows.inode id ≠ .ok (some row) :=
    fun row heq => hfound ⟨row, inode_eq_ok.mp heq⟩
  have hinode : rows'.inode id = rows.inode id := by
    unfold Rows.inode
    rw [hrow]
  unfold Rows.readFile
  rw [hinode]
  cases hi : rows.inode id with
  | error e => rfl
  | ok found =>
    cases found with
    | none => rfl
    | some row => exact absurd hi (hnone row)

theorem inode_of_readFile (h : rows.readFile id = .ok none) : rows.inode id = .ok none := by
  unfold Rows.readFile at h
  obtain ⟨found, hfound, h⟩ := bind_eq_ok.mp h
  cases found with
  | none => exact hfound
  | some row =>
    obtain ⟨chunks, -, h⟩ := bind_eq_ok.mp h
    cases h

theorem withNLink_of_empty (h : row.asV2.layout = .empty) (nlink : UInt32) :
    row.withNLink nlink = .v1 { row.asV1 with nlink } := by
  unfold InodeRow.withNLink
  rw [if_neg (not_not_intro h)]

theorem withNLink_of_layout (h : row.asV2.layout ≠ .empty) (nlink : UInt32) :
    row.withNLink nlink = .v2 { row.asV2 with nlink } := by
  unfold InodeRow.withNLink
  rw [if_pos h]

/-- Another count of links is not another content. -/
theorem SameData.readFile_withNLink {nlink : UInt32} (h : SameData rows rows')
    (hrow : rows.HasInode id row)
    (hrow' : rows'.lookup (.inode id) = some (.inode (row.withNLink nlink))) :
    rows'.readFile id = rows.readFile id := by
  by_cases hlayout : row.asV2.layout = .empty
  · rw [withNLink_of_empty hlayout] at hrow'
    refine h.readFile hrow hrow' rfl rfl rfl ?_
    rw [resolveExtents_empty hrow hlayout, resolveExtents_empty hrow' rfl]
  rw [withNLink_of_layout hlayout] at hrow'
  have hsame : SameExtents row (.v2 { row.asV2 with nlink }) := ⟨rfl, rfl, rfl, rfl⟩
  have hextents := hsame.resolveExtents hrow hrow' h.pages
  cases row with
  | v1 m => exact absurd rfl hlayout
  | v2 m => exact h.readFile hrow hrow' rfl rfl rfl hextents

/-! ### Clearing the destination -/

theorem nlink_sub_one (n : UInt32) : n - 1 = 0 ↔ n = 1 := by
  rw [UInt32.sub_eq_iff_eq_add, UInt32.zero_add]

theorem unlinked_eq_none : row.unlinked = none ↔ row.asV2.nlink = 1 := by
  unfold InodeRow.unlinked
  constructor
  · intro h
    by_cases hlast : row.asV2.nlink - 1 = 0
    · exact (nlink_sub_one _).mp hlast
    · rw [if_neg hlast] at h
      cases h
  · intro h
    rw [if_pos ((nlink_sub_one _).mpr h)]

section Destination

variable {p : InodeID} {n : List Char} {d : DirEntry} {row : Option InodeRow}

section

variable (h : Unlinked cfg rows rows' p n d row)
include h

theorem Unlinked.sameData : SameData rows rows' where
  pages := by
    intro id r q
    refine h.others _ nofun nofun ?_ fun _ => nofun
    rintro ⟨root, hroot⟩
    cases hroot
  extents := fun id =>
    h.others _ nofun nofun (not_isStats_extentMeta id) fun _ => nofun

theorem Unlinked.entry_of_ne {q : InodeID} {m : List Char} (hne : (q, m) ≠ (p, n)) :
    rows'.lookup (.ns q m) = rows.lookup (.ns q m) := by
  exact h.others _ (ns_ne hne) nofun (not_isStats_ns q m) fun _ => nofun

theorem Unlinked.inode_of_ne (hne : id ≠ d.inodeID) :
    rows'.lookup (.inode id) = rows.lookup (.inode id) := by
  exact h.others _ nofun (inode_ne hne) (not_isStats_inode id) fun _ => nofun

theorem Unlinked.lastLink_eq :
    rows.lastLink d.inodeID = true ↔ ∃ r, row = some r ∧ r.unlinked = none := by
  unfold Rows.lastLink
  rw [h.found]
  cases row with
  | none => simp
  | some r => simp [unlinked_eq_none]

/-- An inode that does not go with its last link is left with one link less. -/
theorem Unlinked.relinked (hlast : ¬ rows.lastLink d.inodeID = true) {r : InodeRow}
    (hr : row = some r) : rows'.HasInode d.inodeID (r.withNLink (r.asV2.nlink - 1)) := by
  subst hr
  have hmore : ¬ r.asV2.nlink - 1 = 0 := by
    intro hzero
    exact hlast (h.lastLink_eq.mpr ⟨r, rfl, unlinked_eq_none.mpr ((nlink_sub_one _).mp hzero)⟩)
  have hunlinked : r.unlinked = some (r.withNLink (r.asV2.nlink - 1)) := if_neg hmore
  rw [Rows.HasInode, h.inode, bind_some, hunlinked]
  rfl

/-- The content of the inode is there unless it went with the last link. -/
theorem Unlinked.readFile (hlast : ¬ rows.lastLink d.inodeID = true) (id : InodeID) :
    rows'.readFile id = rows.readFile id := by
  by_cases hid : id = d.inodeID
  · subst hid
    cases row with
    | none =>
      refine h.sameData.readFile_of_row ?_
      rw [h.inode, inode_eq_none.mp h.found]
      rfl
    | some r =>
      exact h.sameData.readFile_withNLink (inode_eq_ok.mp h.found) (h.relinked hlast rfl)
  · exact h.sameData.readFile_of_row (h.inode_of_ne hid)

end

theorem withNLink_bucketRoot (row : InodeRow) (nlink : UInt32) :
    (row.withNLink nlink).asV1.bucketRoot = row.asV1.bucketRoot := by
  by_cases hlayout : row.asV2.layout = .empty
  · rw [withNLink_of_empty hlayout]
    rfl
  · rw [withNLink_of_layout hlayout]
    cases row with
    | v1 m | v2 m => rfl

theorem Unlinked.bucketRoot (h : Unlinked cfg rows rows' p n d row) (parent : InodeID) :
    rows'.bucketRoot parent = rows.bucketRootWithout d.inodeID parent := by
  unfold Rows.bucketRootWithout
  by_cases hid : parent = d.inodeID
  · subst hid
    by_cases hlast : rows.lastLink d.inodeID = true
    · obtain ⟨r, rfl, hr⟩ := h.lastLink_eq.mp hlast
      have hgone : rows'.inode d.inodeID = .ok none := by
        refine inode_eq_none.mpr (h.inode.trans ?_)
        rw [bind_some, hr]
        rfl
      rw [if_pos ⟨rfl, hlast⟩]
      unfold Rows.bucketRoot
      rw [hgone]
    rw [if_neg fun hboth => hlast hboth.2]
    unfold Rows.bucketRoot
    rw [h.found]
    cases row with
    | none => rw [inode_eq_none.mpr h.inode]
    | some r =>
      rw [inode_eq_ok.mpr (h.relinked hlast rfl)]
      exact withNLink_bucketRoot r _
  · have hinode : rows'.inode parent = rows.inode parent := by
      unfold Rows.inode
      rw [h.inode_of_ne hid]
    rw [if_neg fun hboth => hid hboth.1]
    unfold Rows.bucketRoot
    rw [hinode]

end Destination

/-! ### The two halves of a rename -/

section Halves

variable (cfg : Config) (entry : DirEntry) (oldParent : InodeID) (oldName : List Char)
  (newParent : InodeID) (newName : List Char)

/-- What follows once the destination is clear. -/
def moveEntry : Op Unit := do
  let rows ← Op.rows
  if cfg.useBucketStats ∧ rows.bucketRoot oldParent ≠ rows.bucketRoot newParent then
    Op.fail .crossBucketRename
  else applyBatch cfg (renameBatch entry oldParent oldName newParent newName)

/-- What follows once the source is read. -/
def renameFound (full : Bool) : Option DirEntry → Op Unit
  | none => Op.fail .entryNotFound
  | some entry => clearDestination cfg newParent newName full >>= fun _ =>
    moveEntry cfg entry oldParent oldName newParent newName

/-- What becomes of the destination, by what is known of it. -/
def clearFound (full : Bool) : Except ServiceErr (Option DirEntry) → Op Unit
  | .ok (some dest) =>
    if dest.type = .directory then Op.fail .entryExists
    else Op.unlink cfg newParent newName full
  | _ => pure ()

/-- Two directories count for one bucket, if buckets are counted. -/
def OneBucket (rows : Rows Value) (p q : InodeID) : Prop :=
  cfg.useBucketStats = true → rows.bucketRoot p = rows.bucketRoot q

variable (l : Leader) (full : Bool)

theorem rename_eq :
    Op.rename cfg oldParent oldName newParent newName full l =
      (Op.lift (l.rows.entry oldParent oldName) >>=
        renameFound cfg oldParent oldName newParent newName full) l := rfl

theorem clear_eq :
    clearDestination cfg newParent newName full l =
      clearFound cfg newParent newName full (l.rows.entry newParent newName) l := rfl

/-- The source is not there and the rename ends, or the destination is cleared first. -/
theorem source_cases : (∀ entry, l.rows.lookup (.ns oldParent oldName) ≠ some (.entry entry)) ∧
        (∃ e, Op.rename cfg oldParent oldName newParent newName full l = (.error e, l)) ∨
      ∃ entry, l.rows.lookup (.ns oldParent oldName) = some (.entry entry) ∧
        Op.rename cfg oldParent oldName newParent newName full l =
          (clearDestination cfg newParent newName full >>= fun _ =>
            moveEntry cfg entry oldParent oldName newParent newName) l := by
  rw [rename_eq]
  cases hread : l.rows.entry oldParent oldName with
  | error e =>
    refine .inl ⟨fun entry hentry => ?_, e, rfl⟩
    rw [entry_eq_ok.mpr hentry] at hread
    cases hread
  | ok found =>
    cases found with
    | none =>
      refine .inl ⟨fun entry hentry => ?_, .entryNotFound, rfl⟩
      rw [entry_eq_ok.mpr hentry] at hread
      cases hread
    | some entry => exact .inr ⟨entry, entry_eq_ok.mp hread, rfl⟩

/-- There is no destination, it cannot be unlinked and the rename ends, or it is unlinked. -/
theorem clear_cases : (∀ dest, l.rows.lookup (.ns newParent newName) ≠ some (.entry dest)) ∧
        clearDestination cfg newParent newName full l = (.ok (), l) ∨
      (¬ Unlinkable cfg l.rows newParent newName ∧ ∃ e l1,
        clearDestination cfg newParent newName full l = (.error e, l1) ∧ l1.rows = l.rows) ∨
      Unlinkable cfg l.rows newParent newName ∧ ∃ l1 dest row,
        clearDestination cfg newParent newName full l = (.ok (), l1) ∧
          Unlinked cfg l.rows l1.rows newParent newName dest row := by
  by_cases hdest : ∃ dest, l.rows.lookup (.ns newParent newName) = some (.entry dest)
  · obtain ⟨dest, hdest⟩ := hdest
    have hclear : clearDestination cfg newParent newName full l =
        (if dest.type = .directory then Op.fail .entryExists
          else Op.unlink cfg newParent newName full : Op Unit) l := by
      rw [clear_eq, entry_eq_ok.mpr hdest]
      rfl
    rw [hclear]
    by_cases hunlink : Unlinkable cfg l.rows newParent newName
    · obtain ⟨l1, d, row, hl1, hunlinked⟩ := unlink_ok hunlink full
      obtain rfl := Value.entry.inj (some.inj (hdest.symm.trans hunlinked.named))
      rw [if_neg hunlinked.file]
      exact .inr (.inr ⟨hunlink, l1, dest, row, hl1, hunlinked⟩)
    · refine .inr (.inl ⟨hunlink, ?_⟩)
      split_ifs
      · exact ⟨.entryExists, l, rfl, rfl⟩
      · exact unlink_refused hunlink full
  · have hfree : ∀ dest, l.rows.lookup (.ns newParent newName) ≠ some (.entry dest) :=
      fun dest hd => hdest ⟨dest, hd⟩
    refine .inl ⟨hfree, ?_⟩
    rw [clear_eq]
    cases hread : l.rows.entry newParent newName with
    | error e => rfl
    | ok found =>
      cases found with
      | none => rfl
      | some dest => exact absurd (entry_eq_ok.mp hread) (hfree dest)

/-- The entry moves within a bucket, and only there. -/
theorem moveEntry_cases : (¬ OneBucket cfg l.rows oldParent newParent ∧
        moveEntry cfg entry oldParent oldName newParent newName l =
          (.error .crossBucketRename, l)) ∨ OneBucket cfg l.rows oldParent newParent ∧ ∃ l',
        moveEntry cfg entry oldParent oldName newParent newName l = (.ok (), l') ∧
          l'.rows = (l.rows.insert (.ns newParent newName)
            (.entry { entry with name := newName })).erase (.ns oldParent oldName) := by
  have heq : moveEntry cfg entry oldParent oldName newParent newName l =
      (if cfg.useBucketStats = true ∧ l.rows.bucketRoot oldParent ≠ l.rows.bucketRoot newParent
        then Op.fail .crossBucketRename
        else applyBatch cfg (renameBatch entry oldParent oldName newParent newName) : Op Unit)
        l := rfl
  have hprepare : Fsm.prepareReferenceAwareBatch cfg.codec l.rows
      (renameBatch entry oldParent oldName newParent newName) = .ok () := rfl
  rw [heq]
  split_ifs with hcross
  · exact .inl ⟨fun hone => hcross.2 (hone hcross.1), rfl⟩
  · exact .inr ⟨fun hstats => not_not.mp fun hne => hcross ⟨hstats, hne⟩,
      applyBatch_ok (List.cons_ne_nil _ _) hprepare⟩

end Halves

/-- The rows before the batch of a rename: those it found, or without the destination. -/
def Cleared (cfg : Config) (rows rows1 : Rows Value) (newParent : InodeID) (newName : List Char) :
    Prop :=
  rows1 = rows ∨ ∃ d row, Unlinked cfg rows rows1 newParent newName d row

/-- What comes after that: nothing, or the entry moves to a name that is free by then. -/
def Moved (rows rows1 rows' : Rows Value) (oldParent : InodeID) (oldName : List Char)
    (newParent : InodeID) (newName : List Char) : Prop :=
  rows' = rows1 ∨ ∃ entry, rows.lookup (.ns oldParent oldName) = some (.entry entry) ∧
    (∀ dest, rows1.lookup (.ns newParent newName) ≠ some (.entry dest)) ∧
    rows' = (rows1.insert (.ns newParent newName)
      (.entry { entry with name := newName })).erase (.ns oldParent oldName)

theorem rename_cases (cfg : Config) (l : Leader) (oldParent : InodeID) (oldName : List Char)
    (newParent : InodeID) (newName : List Char) (full : Bool) :
    ∃ rows1, Cleared cfg l.rows rows1 newParent newName ∧
      Moved l.rows rows1 (Op.rename cfg oldParent oldName newParent newName full l).2.rows
        oldParent oldName newParent newName ∧
      ((Op.rename cfg oldParent oldName newParent newName full l).2.rows = rows1 ∨
        OneBucket cfg rows1 oldParent newParent) := by
  rcases source_cases cfg oldParent oldName newParent newName l full with
    ⟨-, e, he⟩ | ⟨entry, hsource, heq⟩
  · rw [he]
    exact ⟨l.rows, .inl rfl, .inl rfl, .inl rfl⟩
  have hmoved : ∀ l1 : Leader,
      (∀ dest, l1.rows.lookup (.ns newParent newName) ≠ some (.entry dest)) →
      Moved l.rows l1.rows (moveEntry cfg entry oldParent oldName newParent newName l1).2.rows
          oldParent oldName newParent newName ∧
        ((moveEntry cfg entry oldParent oldName newParent newName l1).2.rows = l1.rows ∨
          OneBucket cfg l1.rows oldParent newParent) := by
    intro l1 hfree
    rcases moveEntry_cases cfg entry oldParent oldName newParent newName l1 with
      ⟨-, hmove⟩ | ⟨hone, l', hmove, hrows⟩
    · rw [hmove]
      exact ⟨.inl rfl, .inl rfl⟩
    · rw [hmove]
      exact ⟨.inr ⟨entry, hsource, hfree, hrows⟩, .inr hone⟩
  rw [heq]
  rcases clear_cases cfg newParent newName l full with
    ⟨hfree, hclear⟩ | ⟨-, e, l1, hclear, hrows⟩ | ⟨-, l1, dest, row, hclear, hgone⟩
  · rw [bind_ok hclear]
    exact ⟨l.rows, .inl rfl, hmoved l hfree⟩
  · rw [bind_error hclear]
    exact ⟨l.rows, .inl rfl, .inl hrows, .inl hrows⟩
  · rw [bind_ok hclear]
    refine ⟨l1.rows, .inr ⟨dest, row, hgone⟩, hmoved l1 fun dest' hdest' => ?_⟩
    rw [hgone.gone] at hdest'
    cases hdest'

/-- Moving an entry to a name that is free. -/
theorem Renamed.of_move {rows1 : Rows Value} (hne : (oldParent, oldName) ≠ (newParent, newName))
    (hrows' : rows' = (rows1.insert (.ns newParent newName)
      (.entry { entry with name := newName })).erase (.ns oldParent oldName))
    (hothers : ∀ p n, (p, n) ≠ (newParent, newName) →
      rows1.lookup (.ns p n) = rows.lookup (.ns p n))
    (hcontent : rows1.readFile entry.inodeID = rows.readFile entry.inodeID) :
    Renamed rows rows' oldParent oldName newParent newName entry := by
  have hkeep : ∀ k, k ≠ .ns newParent newName → k ≠ .ns oldParent oldName →
      rows'.lookup k = rows1.lookup k := by
    intro k hnew hold
    rw [hrows', lookup_erase_ne hold, lookup_insert_of_ne _ hnew]
  refine ⟨?_, fun _ => ?_, fun p n hold hnew => ?_, ?_⟩
  · rw [hrows', lookup_erase_ne (ns_ne hne.symm), lookup_insert]
  · rw [hrows', lookup_erase]
  · rw [hkeep _ (ns_ne hnew) (ns_ne hold), hothers p n hnew]
  · have hdata : SameData rows1 rows' := ⟨fun _ _ _ => hkeep _ nofun nofun,
        fun _ => hkeep _ nofun nofun⟩
    rw [hdata.readFile_of_row (hkeep _ nofun nofun), hcontent]

theorem Untouched.refl (rows : Rows Value) : Untouched rows rows := ⟨fun _ _ => rfl, fun _ => rfl⟩

variable {l : Leader}

/-- A rename that finds nothing to unlink at its destination. -/
theorem rename_of_clear (hsource : l.rows.lookup (.ns oldParent oldName) = some (.entry entry))
    (hdest : ∀ dest, l.rows.lookup (.ns newParent newName) ≠ some (.entry dest)) :
    AllOrNothing l.rows oldParent oldName newParent newName
      (moveEntry cfg entry oldParent oldName newParent newName l) := by
  have hne : (oldParent, oldName) ≠ (newParent, newName) := by
    intro heq
    cases heq
    exact hdest entry hsource
  rcases moveEntry_cases cfg entry oldParent oldName newParent newName l with
    ⟨-, hmove⟩ | ⟨-, l', hmove, hrows⟩
  · rw [hmove]
    exact .refl _
  · rw [hmove]
    exact ⟨entry, hsource, .of_move hne hrows (fun _ _ _ => rfl) rfl⟩

/-- A rename that has unlinked its destination. -/
theorem rename_of_unlinked {l1 : Leader} {dest : DirEntry} {row : Option InodeRow}
    (hsource : l.rows.lookup (.ns oldParent oldName) = some (.entry entry))
    (h : Unlinked cfg l.rows l1.rows newParent newName dest row) :
    AllOrNothing l.rows oldParent oldName newParent newName
        (moveEntry cfg entry oldParent oldName newParent newName l1) ↔
      (oldParent, oldName) ≠ (newParent, newName) ∧
        (cfg.useBucketStats = true → l.rows.bucketRootWithout dest.inodeID oldParent =
          l.rows.bucketRootWithout dest.inodeID newParent) ∧
        (dest.inodeID = entry.inodeID → l.rows.lastLink dest.inodeID = false) := by
  rw [← h.bucketRoot, ← h.bucketRoot]
  rcases moveEntry_cases cfg entry oldParent oldName newParent newName l1 with
    ⟨hcross, hmove⟩ | ⟨hone, l', hmove, hrows⟩
  · rw [hmove]
    constructor
    · intro huntouched
      have hthere := huntouched.entries newParent newName
      rw [h.gone, h.named] at hthere
      cases hthere
    · rintro ⟨-, hone, -⟩
      exact absurd hone hcross
  rw [hmove]
  constructor
  · rintro ⟨e, he, hrenamed⟩
    obtain rfl := Value.entry.inj (some.inj (hsource.symm.trans he))
    refine ⟨fun heq => ?_, hone, fun hid => ?_⟩
    · -- the entry is set and deleted under one key
      obtain ⟨rfl, rfl⟩ := Prod.mk.inj heq
      have hthere := hrenamed.there
      rw [hrows, lookup_erase] at hthere
      cases hthere
    -- the inode is gone
    rw [← Bool.not_eq_true]
    intro hlast
    obtain ⟨r, rfl, hr⟩ := h.lastLink_eq.mp hlast
    have hgone : l'.rows.lookup (.inode dest.inodeID) = none := by
      rw [hrows, lookup_erase_ne Key.noConfusion,
        lookup_insert_of_ne _ Key.noConfusion, h.inode, bind_some, hr]
      rfl
    have hread : l'.rows.readFile dest.inodeID = .ok none := by
      unfold Rows.readFile
      rw [inode_eq_none.mpr hgone]
      rfl
    have hcontent := hrenamed.content
    rw [← hid, hread] at hcontent
    have hnone := inode_of_readFile hcontent.symm
    rw [h.found] at hnone
    cases hnone
  · rintro ⟨hne, -, hlast⟩
    refine ⟨entry, hsource, .of_move hne hrows (fun p n hpn => h.entry_of_ne hpn) ?_⟩
    by_cases hid : entry.inodeID = dest.inodeID
    · exact h.readFile (Bool.not_eq_true _ ▸ hlast hid.symm) _
    · exact h.sameData.readFile_of_row (h.inode_of_ne hid)

/--
**Rename is all or nothing, or the destination was cleared in vain.**  From any rows, a
rename that fails leaves names and inodes alone and one that succeeds moves the entry with
its content, exactly if clearing the destination is safe.
-/
theorem rename_allOrNothing_iff (cfg : Config) (l : Leader) (oldParent : InodeID)
    (oldName : List Char) (newParent : InodeID) (newName : List Char) (full : Bool) :
    AllOrNothing l.rows oldParent oldName newParent newName
        (Op.rename cfg oldParent oldName newParent newName full l) ↔
      RenameSafe cfg l.rows oldParent oldName newParent newName := by
  rcases source_cases cfg oldParent oldName newParent newName l full with
    ⟨hnone, e, he⟩ | ⟨entry, hsource, heq⟩
  · rw [he]
    constructor
    · intro _ entry _ hentry _ _
      exact absurd hentry (hnone entry)
    · intro _
      exact .refl _
  rw [heq]
  rcases clear_cases cfg newParent newName l full with
    ⟨hfree, hclear⟩ | ⟨hunlink, e, l1, hclear, hrows⟩ | ⟨hunlink, l1, dest, row, hclear, hgone⟩
  · rw [bind_ok hclear]
    constructor
    · intro _ _ d _ hd _
      exact absurd hd (hfree d)
    · intro _
      exact rename_of_clear hsource hfree
  · -- a directory, or a file that cannot be unlinked: the rename ends here
    rw [bind_error hclear]
    constructor
    · intro _ _ _ _ _ hcan
      exact absurd hcan hunlink
    · intro _
      show Untouched l.rows l1.rows
      rw [hrows]
      exact .refl _
  · rw [bind_ok hclear, rename_of_unlinked hsource hgone]
    constructor
    · intro hsafe e d he hd _
      obtain rfl := Value.entry.inj (some.inj (hsource.symm.trans he))
      obtain rfl := Value.entry.inj (some.inj (hgone.named.symm.trans hd))
      exact hsafe
    · intro hsafe
      exact hsafe entry dest hsource hgone.named hunlink

/-- A leader with a file `a` in the root directory. -/
def oneName : Leader :=
  .start (((∅ : Rows Value).insert (.inode 2) (.inode (.v1 ⟨2, .regular, 10, 1, 0, 0, []⟩))).insert
    (.ns 1 ['a']) (.entry ⟨2, .regular, ['a']⟩)) 1

/-- A file renamed to its own name: the rename succeeds, and the file is gone. -/
theorem rename_to_itself : (Op.rename plainConfig 1 ['a'] 1 ['a'] false oneName).1 = .ok () ∧
      (Op.rename plainConfig 1 ['a'] 1 ['a'] false oneName).2.rows.lookup (.ns 1 ['a']) = none ∧
      (Op.rename plainConfig 1 ['a'] 1 ['a'] false oneName).2.rows.lookup (.inode 2) = none := by
  decide

end Nufs.Metadata
