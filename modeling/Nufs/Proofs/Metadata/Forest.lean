/-
The namespace of the metadata service is a forest.

No operation walks the ancestors of anything, and none looks whether the directory it is
given exists.  So the namespace stays a forest as long as callers see to it: names are
given in directories, a directory does not move below itself, and a count of links does
not run over.  The operations are steps of the forest then, and every run keeps it.
-/
import Nufs.Proofs.Metadata.Rename
import Nufs.Proofs.Metadata.Tree

namespace Nufs.Metadata

open Relation Finmap Option

variable {cfg : Config}

/-! ### Rows as a forest -/

/-- What a row of a name stands for. -/
def Value.target : Value → Option (InodeID × FileType)
  | entry d => some (d.inodeID, d.type)
  | _ => none

/-- What an inode's row says of it. -/
def Value.kind : Value → Option (FileType × UInt32)
  | inode row => some (row.asV1.type, row.asV1.nlink)
  | _ => none

/-- The rows as names and inodes. -/
def Rows.view (rows : Rows Value) : View where
  entry p n := (rows.lookup (.ns p n)).bind Value.target
  inode id := (rows.lookup (.inode id)).bind Value.kind

/-- Names stand for something, and inodes are inodes. -/
structure Typed (rows : Rows Value) : Prop where
  entries : ∀ p n v, rows.lookup (.ns p n) = some v → ∃ d, v = .entry d
  inodes : ∀ id v, rows.lookup (.inode id) = some v → ∃ row, v = .inode row

/-- The rows are those of a forest. -/
structure Sound (R : InodeID → Prop) (rows : Rows Value) : Prop where
  typed : Typed rows
  tree : Tree R rows.view

/-! ### Reading the view -/

section View

variable {rows rows' : Rows Value}

variable {p id : InodeID} {n : List Char}

theorem view_entry {v : Option Value} (h : rows.lookup (.ns p n) = v) :
    rows.view.entry p n = v.bind Value.target := by
  show (rows.lookup (.ns p n)).bind Value.target = _
  rw [h]

theorem view_inode {v : Option Value} (h : rows.lookup (.inode id) = v) :
    rows.view.inode id = v.bind Value.kind := by
  show (rows.lookup (.inode id)).bind Value.kind = _
  rw [h]

theorem inode_unique {row row' : InodeRow} (h : rows.HasInode id row)
    (h' : rows.HasInode id row') : row = row' :=
  Value.inode.inj (some.inj (h.symm.trans h'))

variable {t : FileType}

theorem row_of_view {nlink : UInt32} (h : rows.view.inode id = some (t, nlink)) :
    ∃ row, rows.HasInode id row ∧ row.asV1.type = t ∧ row.asV1.nlink = nlink := by
  obtain ⟨v, hv, hkind⟩ := bind_eq_some_iff.mp h
  cases v with
  | inode row =>
    obtain ⟨ht, hn⟩ := Prod.mk.inj (some.inj hkind)
    exact ⟨row, hv, ht, hn⟩
  | _ => cases hkind

theorem entry_of_view {c : InodeID} (h : rows.view.entry p n = some (c, t)) :
    ∃ d, rows.lookup (.ns p n) = some (.entry d) ∧ d.inodeID = c ∧ d.type = t := by
  obtain ⟨v, hv, htarget⟩ := bind_eq_some_iff.mp h
  cases v with
  | entry d =>
    obtain ⟨hc, ht⟩ := Prod.mk.inj (some.inj htarget)
    exact ⟨d, hv, hc, ht⟩
  | _ => cases htarget

end View

variable {rows : Rows Value} {l : Leader} {R : InodeID → Prop}

variable {rows' : Rows Value}

/-- One name is new or gone, inodes are new or gone, and the rest is as it was. -/
theorem Typed.update {p : InodeID} {n : List Char} (h : Typed rows)
    (hname : rows'.lookup (.ns p n) = none ∨ ∃ d, rows'.lookup (.ns p n) = some (.entry d))
    (hns : ∀ q m, (q, m) ≠ (p, n) → rows'.lookup (.ns q m) = rows.lookup (.ns q m))
    (hinode : ∀ id, rows'.lookup (.inode id) = rows.lookup (.inode id) ∨
      rows'.lookup (.inode id) = none ∨ ∃ row, rows'.lookup (.inode id) = some (.inode row)) :
    Typed rows' := by
  constructor
  · intro q m v hv
    by_cases hkey : (q, m) = (p, n)
    · cases hkey
      rcases hname with hnone | ⟨d, hd⟩
      · rw [hnone] at hv
        cases hv
      · rw [hd] at hv
        exact ⟨d, (some.inj hv).symm⟩
    · exact h.entries q m v ((hns q m hkey).symm.trans hv)
  · intro id v hv
    rcases hinode id with hsame | hnone | ⟨row, hrow⟩
    · exact h.inodes id v (hsame.symm.trans hv)
    · rw [hnone] at hv
      cases hv
    · rw [hrow] at hv
      exact ⟨row, (some.inj hv).symm⟩

theorem view_congr (hns : ∀ p n, rows'.lookup (.ns p n) = rows.lookup (.ns p n))
    (hinode : ∀ id, rows'.lookup (.inode id) = rows.lookup (.inode id)) :
    rows'.view = rows.view := by
  unfold Rows.view
  congr 1
  · funext p n
    rw [hns]
  · funext id
    rw [hinode]

/-! ### The operations as steps of the forest -/

section Steps

theorem Sound.congr (h : Sound R rows) (hns : ∀ p n, rows'.lookup (.ns p n) = rows.lookup (.ns p n))
    (hinode : ∀ id, rows'.lookup (.inode id) = rows.lookup (.inode id)) : Sound R rows' := by
  refine ⟨⟨fun p n v hv => h.typed.entries p n v ((hns p n).symm.trans hv),
    fun id v hv => h.typed.inodes id v ((hinode id).symm.trans hv)⟩, ?_⟩
  rw [view_congr hns hinode]
  exact h.tree

theorem Sound.same (h : Sound R rows) (hsame : SameRows rows rows') : Sound R rows' :=
  h.congr (fun _ _ => hsame _ fun _ => nofun) fun _ => hsame _ fun _ => nofun

variable {p parent id : InodeID} {n name : List Char} {now : Int} {row : Option InodeRow}
  {d : DirEntry} {type : FileType} {statBytes : Int}

variable {q oldParent newParent bucketRoot : InodeID} {oldName newName : List Char}

theorem FileCreated.entry_of_ne
    (h : FileCreated cfg rows rows' type statBytes bucketRoot parent name now id) (q : InodeID)
    (m : List Char) (hne : (q, m) ≠ (parent, name)) :
    rows'.lookup (.ns q m) = rows.lookup (.ns q m) :=
  h.others _ (ns_ne hne) nofun (not_isStats_ns q m) fun _ => nofun

theorem FileCreated.inode_of_ne {x : InodeID}
    (h : FileCreated cfg rows rows' type statBytes bucketRoot parent name now id) (hne : x ≠ id) :
    rows'.lookup (.inode x) = rows.lookup (.inode x) :=
  h.others _ nofun (inode_ne hne) (not_isStats_inode x) fun _ => nofun

theorem DirCreated.entry_of_ne (h : DirCreated rows rows' parent name now id) (q : InodeID)
    (m : List Char) (hne : (q, m) ≠ (parent, name)) :
    rows'.lookup (.ns q m) = rows.lookup (.ns q m) :=
  h.others _ (ns_ne hne) nofun nofun fun _ => nofun

theorem DirCreated.inode_of_ne {x : InodeID} (h : DirCreated rows rows' parent name now id)
    (hne : x ≠ id) (hp : x ≠ parent) : rows'.lookup (.inode x) = rows.lookup (.inode x) :=
  h.others _ nofun (inode_ne hne) (fun heq => absurd heq (inode_ne hp)) fun _ => nofun

theorem DirRemoved.entry_of_ne (h : DirRemoved rows rows' parent name d) (q : InodeID)
    (m : List Char) (hne : (q, m) ≠ (parent, name)) :
    rows'.lookup (.ns q m) = rows.lookup (.ns q m) :=
  h.others _ (ns_ne hne) nofun nofun fun _ => nofun

theorem DirRemoved.inode_of_ne {x : InodeID} (h : DirRemoved rows rows' parent name d)
    (hne : x ≠ d.inodeID) (hp : x ≠ parent) : rows'.lookup (.inode x) = rows.lookup (.inode x) :=
  h.others _ nofun (inode_ne hne) (fun heq => absurd heq (inode_ne hp)) fun _ => nofun

theorem Sound.createFile (h : Sound R rows)
    (hnew : FileCreated cfg rows rows' type statBytes bucketRoot parent name now id)
    (hdir : rows.view.IsDir parent) : Sound R rows' := by
  constructor
  · refine h.typed.update (.inr ⟨_, hnew.entry⟩) hnew.entry_of_ne fun x => ?_
    by_cases hx : x = id
    · subst hx
      exact .inr (.inr ⟨_, hnew.row⟩)
    · exact .inl (hnew.inode_of_ne hx)
  have hcreates : Tree.Creates rows.view rows'.view parent name id type 1 :=
    { name_free := view_entry hnew.name_free
      entry := view_entry hnew.entry
      entries := fun q m hkey => view_entry (hnew.entry_of_ne q m hkey)
      node_free := view_inode hnew.id_free
      inode := view_inode hnew.row
      inodes := fun x hx => .inl (view_inode (hnew.inode_of_ne hx)) }
  exact h.tree.create hcreates hdir fun _ => rfl

theorem Sound.mkDir (h : Sound R rows) (hnew : DirCreated rows rows' parent name now id)
    (hdir : rows.view.IsDir parent) : Sound R rows' := by
  obtain ⟨nlink, hparent⟩ := hdir
  obtain ⟨row, hrow, htype, -⟩ := row_of_view hparent
  have habove := hnew.above row (inode_eq_ok.mpr hrow)
  constructor
  · refine h.typed.update (.inr ⟨_, hnew.entry⟩) hnew.entry_of_ne fun x => ?_
    by_cases hx : x = id
    · subst hx
      exact .inr (.inr ⟨_, hnew.row⟩)
    · by_cases hp : x = parent
      · subst hp
        exact .inr (.inr ⟨_, habove⟩)
      · exact .inl (hnew.inode_of_ne hx hp)
  · have hcreates : Tree.Creates rows.view rows'.view parent name id .directory 2 :=
      { name_free := view_entry hnew.name_free
        entry := view_entry hnew.entry
        entries := fun q m hkey => view_entry (hnew.entry_of_ne q m hkey)
        node_free := view_inode hnew.id_free
        inode := view_inode hnew.row
        inodes := by
          intro x hx
          by_cases hp : x = parent
          · subst hp
            exact .inr ⟨nlink, _, hparent, (view_inode habove).trans (by rw [← htype]; rfl)⟩
          · exact .inl (view_inode (hnew.inode_of_ne hx hp)) }
    exact h.tree.create hcreates ⟨nlink, hparent⟩ fun hne => absurd rfl hne

theorem asV2_type (row : InodeRow) : row.asV2.type = row.asV1.type := by
  cases row with
  | v1 m | v2 m => rfl

theorem asV2_nlink (row : InodeRow) : row.asV2.nlink = row.asV1.nlink := by
  cases row with
  | v1 m | v2 m => rfl

theorem withNLink_kind (row : InodeRow) (nlink : UInt32) :
    (row.withNLink nlink).asV1.type = row.asV1.type ∧ (row.withNLink nlink).asV1.nlink = nlink := by
  by_cases hlayout : row.asV2.layout = .empty
  · rw [withNLink_of_empty hlayout]
    exact ⟨rfl, rfl⟩
  · rw [withNLink_of_layout hlayout]
    exact ⟨asV2_type row, rfl⟩

theorem linked_kind (row : InodeRow) (now : Int) : (row.linked now).asV1.type = row.asV1.type ∧
      (row.linked now).asV1.nlink = row.asV1.nlink + 1 := by
  have hkind := withNLink_kind row (row.asV2.nlink + 1)
  rw [← asV2_nlink row]
  unfold InodeRow.linked
  cases hrow : row.withNLink (row.asV2.nlink + 1) with
  | v1 m | v2 m =>
    rw [hrow] at hkind
    exact hkind

theorem Sound.link {target : InodeID} {row : InodeRow} (h : Sound R rows)
    (hnew : FileLinked rows rows' parent name target now row) (hdir : rows.view.IsDir parent)
    (hwrap : row.asV2.nlink + 1 ≠ 0) : Sound R rows' := by
  have hns : ∀ q m, (q, m) ≠ (parent, name) → rows'.lookup (.ns q m) = rows.lookup (.ns q m) :=
    fun q m hne => hnew.others _ (ns_ne hne) nofun
  have hinode : ∀ x, x ≠ target → rows'.lookup (.inode x) = rows.lookup (.inode x) :=
    fun x hne => hnew.others _ nofun (inode_ne hne)
  obtain ⟨htype, hnlink⟩ := linked_kind row now
  constructor
  · refine h.typed.update (.inr ⟨_, hnew.entry⟩) hns fun x => ?_
    by_cases hx : x = target
    · subst hx
      exact .inr (.inr ⟨_, hnew.inode⟩)
    · exact .inl (hinode x hx)
  have hgains : Tree.Gains rows.view rows'.view parent name target row.asV2.type :=
    ⟨view_entry hnew.name_free, view_entry hnew.entry,
      fun q m hkey => view_entry (hns q m hkey)⟩
  have hc : rows.view.inode target = some (row.asV2.type, row.asV2.nlink) := by
    rw [asV2_type, asV2_nlink]
    exact view_inode hnew.found
  have hc' : rows'.view.inode target = some (row.asV2.type, row.asV2.nlink + 1) := by
    rw [asV2_type, asV2_nlink, ← htype, ← hnlink]
    exact view_inode hnew.inode
  exact h.tree.link hgains hdir hnew.file hc hc' hwrap fun x hx =>
    view_inode (hinode x hx)

theorem Unlinked.loses (h : Unlinked cfg rows rows' p n d row) :
    Tree.Loses rows.view rows'.view p n :=
  ⟨view_entry h.gone, fun _ _ hkey => view_entry (h.entry_of_ne hkey)⟩

theorem Sound.unlink (h : Sound R rows) (hgone : Unlinked cfg rows rows' p n d row) :
    Sound R rows' := by
  have hinode : ∀ x, x ≠ d.inodeID → rows'.lookup (.inode x) = rows.lookup (.inode x) :=
    fun x hne => hgone.inode_of_ne hne
  have hentry := view_entry hgone.named
  obtain ⟨nlink, hkind⟩ := h.tree.kinds p n _ _ hentry
  obtain ⟨r, hr, htype, hnlink⟩ := row_of_view hkind
  obtain rfl : row = some r := by
    have hfound := hgone.found
    rw [inode_eq_ok.mpr hr] at hfound
    exact (Except.ok.inj hfound).symm
  have hleft : rows'.lookup (.inode d.inodeID) = r.unlinked.map .inode := hgone.inode
  constructor
  · refine h.typed.update (.inl hgone.gone) (fun _ _ => hgone.entry_of_ne) fun x => ?_
    by_cases hx : x = d.inodeID
    · subst hx
      rw [hleft]
      cases r.unlinked with
      | none => exact .inr (.inl rfl)
      | some r' => exact .inr (.inr ⟨r', rfl⟩)
    · exact .inl (hinode x hx)
  · refine h.tree.unlink hgone.loses hentry hgone.file hkind ?_ fun x hx => view_inode (hinode x hx)
    split_ifs with hlast
    · have hnone : rows'.lookup (.inode d.inodeID) = none := by
        rw [hleft, InodeRow.unlinked, asV2_nlink, hnlink, if_pos hlast]
        rfl
      exact view_inode hnone
    · have hrow' : rows'.lookup (.inode d.inodeID) = some (.inode (r.withNLink (nlink - 1))) := by
        rw [hleft, InodeRow.unlinked, asV2_nlink, hnlink, if_neg hlast]
        rfl
      obtain ⟨hsame, hless⟩ := withNLink_kind r (nlink - 1)
      rw [view_inode hrow', bind_some, Value.kind, hsame, hless, htype]

theorem Sound.rmDir (h : Sound R rows) (hgone : DirRemoved rows rows' parent name d) :
    Sound R rows' := by
  have hentry : rows.view.entry parent name = some (d.inodeID, d.type) := view_entry hgone.named
  rw [hgone.directory] at hentry
  obtain ⟨nlink, hparent⟩ := h.tree.dirs _ _ _ _ hentry
  obtain ⟨row, hrow, htype, -⟩ := row_of_view hparent
  have habove := hgone.above row (inode_eq_ok.mpr hrow)
  constructor
  · refine h.typed.update (.inl hgone.gone) hgone.entry_of_ne fun x => ?_
    by_cases hx : x = d.inodeID
    · subst hx
      exact .inr (.inl hgone.inode)
    · by_cases hp : x = parent
      · subst hp
        exact .inr (.inr ⟨_, habove⟩)
      · exact .inl (hgone.inode_of_ne hx hp)
  · have hlose : Tree.Loses rows.view rows'.view parent name :=
      ⟨view_entry hgone.gone, fun q m hkey => view_entry (hgone.entry_of_ne q m hkey)⟩
    refine h.tree.rmDir hlose hentry
      (fun m => view_entry (no_children hgone.childless m)) (view_inode hgone.inode) ?_
    intro x hx
    by_cases hp : x = parent
    · subst hp
      exact .inr ⟨nlink, _, hparent, (view_inode habove).trans (by rw [← htype]; rfl)⟩
    · exact .inl (view_inode (hgone.inode_of_ne hx hp))

theorem Sound.move (h : Sound R rows)
    (hsource : rows.lookup (.ns oldParent oldName) = some (.entry d))
    (hfree : ∀ dest, rows.lookup (.ns newParent newName) ≠ some (.entry dest))
    (hrows' : rows' = (rows.insert (.ns newParent newName)
      (.entry { d with name := newName })).erase (.ns oldParent oldName))
    (hdir : rows.view.IsDir newParent)
    (hbelow : ¬ ReflTransGen rows.view.Names d.inodeID newParent) : Sound R rows' := by
  have hnone : rows.lookup (.ns newParent newName) = none := by
    cases hv : rows.lookup (.ns newParent newName) with
    | none => rfl
    | some v =>
      obtain ⟨dest, rfl⟩ := h.typed.entries _ _ _ hv
      exact absurd hv (hfree dest)
  have hne : (newParent, newName) ≠ (oldParent, oldName) := by
    intro heq
    obtain ⟨rfl, rfl⟩ := Prod.mk.inj heq
    rw [hsource] at hnone
    cases hnone
  have hkeep : ∀ k, k ≠ .ns newParent newName → k ≠ .ns oldParent oldName →
      rows'.lookup k = rows.lookup k := by
    intro k hnew hold
    rw [hrows', lookup_erase_ne hold, lookup_insert_of_ne _ hnew]
  have hthere : rows'.lookup (.ns newParent newName) =
      some (.entry { d with name := newName }) := by
    rw [hrows', lookup_erase_ne (ns_ne hne), lookup_insert]
  have hgone : rows'.lookup (.ns oldParent oldName) = none := by
    rw [hrows', lookup_erase]
  constructor
  · have hset : Typed (rows.insert (.ns newParent newName) (.entry { d with name := newName })) :=
      h.typed.update (.inr ⟨_, lookup_insert _⟩)
        (fun _ _ hkey => lookup_insert_of_ne _ (ns_ne hkey))
        fun _ => .inl (lookup_insert_of_ne _ nofun)
    rw [hrows']
    exact hset.update (.inl (lookup_erase _ _)) (fun _ _ hkey => lookup_erase_ne (ns_ne hkey))
      fun _ => .inl (lookup_erase_ne nofun)
  · have hview := view_entry hthere
    have hmoves : Tree.Moves rows.view rows'.view oldParent oldName newParent newName d.inodeID
        d.type :=
      ⟨view_entry hsource, view_entry hnone, view_entry hgone, hview,
        fun q m hold hnew => view_entry (hkeep _ (ns_ne hnew) (ns_ne hold)),
        fun x => view_inode (hkeep _ Key.noConfusion Key.noConfusion)⟩
    exact h.tree.move hmoves hdir hbelow

/-- Nothing is below a directory that was not before a name was taken away. -/
theorem names_of_unlinked (hgone : Unlinked cfg rows rows' p n d row) (a b : InodeID)
    (hab : rows'.view.Names a b) : rows.view.Names a b := by
  obtain ⟨m, t, hm⟩ := hab
  exact ⟨m, t, (hgone.loses.before hm).2⟩

theorem isDir_of_unlinked (h : Sound R rows) (hgone : Unlinked cfg rows rows' p n d row)
    (hdir : rows.view.IsDir q) : rows'.view.IsDir q := by
  obtain ⟨k, hk⟩ := h.tree.kinds _ _ _ _ (view_entry hgone.named)
  have hne : q ≠ d.inodeID := hdir.ne_file hk hgone.file
  obtain ⟨nlink, hq⟩ := hdir
  exact ⟨nlink, (view_inode (hgone.inode_of_ne hne)).trans hq⟩

/-- A rename does nothing after it cleared its destination, or moves an entry that is there. -/
theorem rename_moves (cfg : Config) (l : Leader) (oldParent : InodeID) (oldName : List Char)
    (newParent : InodeID) (newName : List Char) (full : Bool) :
    ∃ rows1, Cleared cfg l.rows rows1 newParent newName ∧
      ((Op.rename cfg oldParent oldName newParent newName full l).2.rows = rows1 ∨
        ∃ entry, l.rows.lookup (.ns oldParent oldName) = some (.entry entry) ∧
          rows1.lookup (.ns oldParent oldName) = some (.entry entry) ∧
          (∀ dest, rows1.lookup (.ns newParent newName) ≠ some (.entry dest)) ∧
          (cfg.useBucketStats = true → rows1.bucketRoot oldParent = rows1.bucketRoot newParent) ∧
          (Op.rename cfg oldParent oldName newParent newName full l).2.rows =
            (rows1.insert (.ns newParent newName)
              (.entry { entry with name := newName })).erase (.ns oldParent oldName)) := by
  obtain ⟨rows1, hcleared, hmoved, hbucket⟩ :=
    rename_cases cfg l oldParent oldName newParent newName full
  refine ⟨rows1, hcleared, ?_⟩
  rcases hmoved with hstop | ⟨entry, hsource, hfree, hrows⟩
  · exact .inl hstop
  rcases hbucket with hstop | hbucket
  · exact .inl hstop
  rcases hcleared with rfl | ⟨d, row, hgone⟩
  · exact .inr ⟨entry, hsource, hsource, hfree, hbucket, hrows⟩
  by_cases hsame : (oldParent, oldName) = (newParent, newName)
  · -- the entry is set and deleted under one key, which was free already
    cases hsame
    left
    rw [hrows]
    refine ext_lookup fun k => ?_
    by_cases hk : k = .ns oldParent oldName
    · rw [hk, lookup_erase, hgone.gone]
    · rw [lookup_erase_ne hk, lookup_insert_of_ne _ hk]
  · exact .inr ⟨entry, hsource, (hgone.entry_of_ne hsame).trans hsource, hfree, hbucket, hrows⟩

/-- A rename into a directory that is not below what moves. -/
theorem Sound.rename (h : Sound R l.rows) (hdir : l.rows.view.IsDir newParent)
    (hbelow : ∀ d, l.rows.lookup (.ns oldParent oldName) = some (.entry d) →
      ¬ ReflTransGen l.rows.view.Names d.inodeID newParent) (full : Bool) :
    Sound R (Op.rename cfg oldParent oldName newParent newName full l).2.rows := by
  obtain ⟨rows1, hcleared, hmoves⟩ := rename_moves cfg l oldParent oldName newParent newName full
  have hsound1 : Sound R rows1 := by
    rcases hcleared with rfl | ⟨d, row, hgone⟩
    · exact h
    · exact h.unlink hgone
  rcases hmoves with hstop | ⟨entry, hsource, hsource1, hfree, -, hrows⟩
  · rw [hstop]
    exact hsound1
  rcases hcleared with rfl | ⟨d, row, hgone⟩
  · exact h.move hsource hfree hrows hdir (hbelow entry hsource)
  · refine hsound1.move hsource1 hfree hrows (isDir_of_unlinked h hgone hdir) ?_
    intro hpath
    exact hbelow entry hsource (.mono (names_of_unlinked hgone) _ _ hpath)

end Steps

/-! ### Any number of calls -/

/-- What callers have to see to. -/
def InDirectories (l : Leader) : Call → Prop
  | .createFile parent _ _ _ _ => l.rows.view.IsDir parent
  | .symlink parent _ _ _ _ _ => l.rows.view.IsDir parent
  | .mkDir parent _ _ _ _ => l.rows.view.IsDir parent
  | .link parent _ target _ => l.rows.view.IsDir parent ∧
      ∀ row, l.rows.lookup (.inode target) = some (.inode row) → row.asV2.nlink + 1 ≠ 0
  | .unlink _ _ _ => True
  | .rmDir _ _ _ => True
  | .rename oldParent oldName newParent _ _ => l.rows.view.IsDir newParent ∧
      ∀ d, l.rows.lookup (.ns oldParent oldName) = some (.entry d) →
        ¬ ReflTransGen l.rows.view.Names d.inodeID newParent
  | _ => False

theorem call_of_discard {α : Type} {m : Op α} : ((do let _ ← m : Op Unit) l).2 = (m l).2 := by
  rcases hm : m l with ⟨r | a, l'⟩
  · show (Op.next m _ l).2 = l'
    unfold Op.next
    rw [hm]
  · show (Op.next m _ l).2 = l'
    unfold Op.next
    rw [hm]
    rfl

/-- What a call on names does to the rows, if it does anything. -/
def Effect (cfg : Config) (rows rows' : Rows Value) : Call → Prop
  | .createFile parent name now mint retry => ∃ id,
      FileCreated cfg rows rows' .regular 0 (rows.bucketRoot parent) parent name now id ∧
        (id = mint.id ∨ id = retry.id)
  | .symlink parent name target now mint retry => ∃ id,
      FileCreated cfg rows rows' .symlink target.length (rows.bucketRoot parent) parent name now
        id ∧ (id = mint.id ∨ id = retry.id)
  | .mkDir parent name now _ _ => ∃ id, DirCreated rows rows' parent name now id
  | .unlink parent name _ => ∃ d row, Unlinked cfg rows rows' parent name d row
  | .rmDir parent name _ => ∃ d, DirRemoved rows rows' parent name d
  | .link parent name target now => ∃ row, FileLinked rows rows' parent name target now row
  | _ => True

theorem call_effect (cfg : Config) (l : Leader) (c : Call) :
    SameRows l.rows (l.call cfg c).rows ∨ Effect cfg l.rows (l.call cfg c).rows c := by
  unfold Leader.call
  cases c with
  | createFile parent name now mint retry =>
    rw [Call.op, call_of_discard]
    rw [Op.createFile]
    split_ifs with hlong
    · exact .inl (.refl _)
    · exact create_effect (E := fun id rows => FileCreated cfg l.rows rows .regular 0 _ _ _ _ id)
        (fun _ _ => ⟨rfl, rfl⟩) (fun _ _ hsame h => createFileBatch_takes hsame h) mint retry
  | symlink parent name target now mint retry =>
    rw [Call.op, call_of_discard]
    exact create_effect (E := fun id rows => FileCreated cfg l.rows rows .symlink _ _ _ _ _ id)
      (fun _ _ => ⟨rfl, rfl⟩) (fun _ _ hsame h => createFileBatch_takes hsame h) mint retry
  | mkDir parent name now mint retry =>
    rw [Call.op, call_of_discard, Op.mkDir]
    split_ifs
    · exact .inl (.refl _)
    · refine (create_effect (E := fun id rows => DirCreated l.rows rows parent name now id)
        (fun _ _ => ⟨rfl, rfl⟩) (fun _ _ hsame h => mkDirBatch_takes hsame h)
          mint retry).imp_right ?_
      rintro ⟨id, hnew, -⟩
      exact ⟨id, hnew⟩
  | unlink parent name full =>
    rw [Call.op]
    by_cases hunlink : Unlinkable cfg l.rows parent name
    · obtain ⟨l', d, row, hl', hgone⟩ := unlink_ok hunlink full
      rw [hl']
      exact .inr ⟨d, row, hgone⟩
    · obtain ⟨e, l', hl', hrows⟩ := unlink_refused hunlink full
      rw [hl']
      exact .inl (.of_eq hrows)
  | rmDir parent name full => exact rmDir_effect cfg parent name full l
  | link parent name target now => exact link_effect cfg parent name target now l
  | _ => exact .inr trivial

theorem Sound.call (h : Sound R l.rows) {c : Call} (hguard : InDirectories l c) :
    Sound R (l.call cfg c).rows := by
  rcases call_effect cfg l c with hsame | heffect
  · exact h.same hsame
  cases c with
  | createFile parent name now mint retry | symlink parent name target now mint retry =>
    obtain ⟨id, hnew, -⟩ := heffect
    exact h.createFile hnew hguard
  | mkDir parent name now mint retry =>
    obtain ⟨id, hnew⟩ := heffect
    exact h.mkDir hnew hguard
  | unlink parent name full =>
    obtain ⟨d, row, hgone⟩ := heffect
    exact h.unlink hgone
  | rmDir parent name full =>
    obtain ⟨d, hgone⟩ := heffect
    exact h.rmDir hgone
  | link parent name target now =>
    obtain ⟨row, hnew⟩ := heffect
    exact h.link hnew hguard.1 (hguard.2 row hnew.found)
  | rename oldParent oldName newParent newName full => exact h.rename hguard.1 hguard.2 full
  | _ => exact absurd hguard id

/-- A store that was just made: directories that are roots, and no names. -/
structure JustMade (R : InodeID → Prop) (rows : Rows Value) : Prop where
  names : ∀ p n, rows.lookup (.ns p n) = none
  roots : ∀ r, R r → ∃ row, rows.lookup (.inode r) = some (.inode row) ∧
    row.asV1.type = .directory
  others : ∀ id, ¬ R id → rows.lookup (.inode id) = none

theorem JustMade.sound (h : JustMade R rows) : Sound R rows := by
  have hentry : ∀ {p n e}, rows.view.entry p n ≠ some e := by
    intro p n e he
    rw [view_entry (h.names p n)] at he
    cases he
  have hlive : ∀ {c}, rows.view.inode c ≠ none → R c := by
    intro c hc
    by_contra hR
    exact hc (view_inode (h.others c hR))
  have hdir : ∀ r, R r → rows.view.IsDir r := by
    intro r hr
    obtain ⟨row, hrow, htype⟩ := h.roots r hr
    exact ⟨row.asV1.nlink, (view_inode hrow).trans (by rw [← htype]; rfl)⟩
  refine ⟨⟨fun p n v hv => ?_, fun id v hv => ?_⟩, ?_⟩
  · rw [h.names] at hv
    cases hv
  · by_cases hR : R id
    · obtain ⟨row, hrow, -⟩ := h.roots id hR
      rw [hrow] at hv
      exact ⟨row, (some.inj hv).symm⟩
    · rw [h.others id hR] at hv
      cases hv
  refine ⟨?_, ?_, hdir, ?_, ?_, ?_, ?_⟩
  · intro p n c t hc
    exact absurd hc hentry
  · intro p n c t hc
    exact absurd hc hentry
  · intro p n c t hc
    exact absurd hc hentry
  · intro p n p' n' c t hc
    exact absurd hc hentry
  · intro c t nlink hc ht
    have hR : R c := hlive (by rw [hc]; exact some_ne_none _)
    obtain ⟨k, hk⟩ := hdir c hR
    rw [hc] at hk
    exact absurd (Prod.mk.inj (some.inj hk)).1 ht
  · intro c hc
    exact .root (hlive hc)

/-- A directory has a name for an inode. -/
def HasName (rows : Rows Value) (p c : InodeID) : Prop :=
  ∃ n d, rows.lookup (.ns p n) = some (.entry d) ∧ d.inodeID = c

/-- Names lead up from every inode to a root, and never back to where they started. -/
structure Forest (R : InodeID → Prop) (rows : Rows Value) : Prop where
  acyclic : ∀ id, ¬ TransGen (HasName rows) id id
  parents : ∀ p c, HasName rows p c → (rows.lookup (.inode p)).isSome
  reached : ∀ id, (rows.lookup (.inode id)).isSome →
    ∃ r, R r ∧ ReflTransGen (HasName rows) r id

theorem hasName_iff (p c : InodeID) : HasName rows p c ↔ rows.view.Names p c := by
  constructor
  · rintro ⟨n, d, hd, rfl⟩
    exact ⟨n, d.type, view_entry hd⟩
  · rintro ⟨n, t, hn⟩
    obtain ⟨d, hd, hc, -⟩ := entry_of_view hn
    exact ⟨n, d, hd, hc⟩

theorem Sound.forest (h : Sound R rows) : Forest R rows := by
  have hnames : HasName rows = rows.view.Names := by
    funext p c
    exact propext (hasName_iff p c)
  refine ⟨?_, ?_, ?_⟩
  · rw [hnames]
    exact h.tree.acyclic
  · intro p c hpc
    obtain ⟨n, t, hn⟩ := (hasName_iff p c).mp hpc
    obtain ⟨nlink, hp⟩ := h.tree.dirs p n c t hn
    obtain ⟨row, hrow, -⟩ := row_of_view hp
    rw [hrow]
    rfl
  · intro id hid
    obtain ⟨v, hv⟩ := isSome_iff_exists.mp hid
    obtain ⟨row, rfl⟩ := h.typed.inodes id v hv
    rw [hnames]
    exact h.tree.reached id (by rw [view_inode hv]; exact some_ne_none _)

theorem Sound.run (h : Sound R l.rows) {calls : List Call}
    (hmeets : Guarded.Meets (nextCall cfg) InDirectories calls l) :
    Sound R (Leader.run cfg calls l).rows := by
  induction calls generalizing l with
  | nil => exact h
  | cons c calls ih => exact ih (h.call hmeets.1) (hmeets.2 _ rfl)

/--
**The namespace is a forest.**  From a store that was just made, in every run of namespace
operations that keeps to directories and moves none below itself, every inode is reached
from a root by names, every name is in an inode that is there, and none is below itself.
-/
theorem namespace_forest (cfg : Config) (R : InodeID → Prop) (l : Leader)
    (hmade : JustMade R l.rows) (calls : List Call)
    (hmeets : Guarded.Meets (nextCall cfg) InDirectories calls l) :
    Forest R (Leader.run cfg calls l).rows :=
  (hmade.sound.run hmeets).forest

/-- A leader with the root directory only. -/
def rootOnly : Leader :=
  .start ((∅ : Rows Value).insert (.inode rootInodeID)
    (.inode (.v1 ⟨rootInodeID, .directory, 0, 2, 0, 0, []⟩))) 1

theorem rootOnly_justMade : JustMade (· = rootInodeID) rootOnly.rows where
  names := fun _ _ => lookup_insert_of_ne _ nofun
  roots := by
    rintro r rfl
    exact ⟨_, lookup_insert _, rfl⟩
  others := fun id hid => lookup_insert_of_ne _ (inode_ne hid)

/-- A directory, and a file in it. -/
def nestedCalls : List Call :=
  [.mkDir rootInodeID ['a'] 0 ⟨2, false⟩ ⟨2, false⟩, .createFile 2 ['f'] 0 ⟨3, false⟩ ⟨3, false⟩]

theorem namespace_forest_nested :
    Forest (· = rootInodeID) (Leader.run plainConfig nestedCalls rootOnly).rows := by
  have hmeets : Guarded.Meets (nextCall plainConfig) InDirectories nestedCalls rootOnly := by
    refine ⟨⟨2, rfl⟩, fun l hl => ⟨?_, fun _ _ => trivial⟩⟩
    cases hl
    exact ⟨2, rfl⟩
  exact namespace_forest plainConfig _ rootOnly rootOnly_justMade nestedCalls hmeets

/-- A directory is renamed into its own subdirectory. -/
def swallowingCalls : List Call :=
  [.mkDir rootInodeID ['a'] 0 ⟨2, false⟩ ⟨2, false⟩, .mkDir 2 ['b'] 0 ⟨3, false⟩ ⟨3, false⟩,
    .rename rootInodeID ['a'] 3 ['c'] false]

theorem directory_below_itself :
    TransGen (HasName (Leader.run plainConfig swallowingCalls rootOnly).rows) 2 2 := by
  have hdown : HasName (Leader.run plainConfig swallowingCalls rootOnly).rows 2 3 :=
    ⟨['b'], ⟨3, .directory, ['b']⟩, by decide, rfl⟩
  have hup : HasName (Leader.run plainConfig swallowingCalls rootOnly).rows 3 2 :=
    ⟨['c'], ⟨2, .directory, ['c']⟩, by decide, rfl⟩
  exact (TransGen.single hdown).tail hup

end Nufs.Metadata
