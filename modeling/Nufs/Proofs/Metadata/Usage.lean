/-
The counters of a bucket against a scan of the store.

The counters follow the rows of files: an object with each row, bytes with its size.  The
scan follows names and extents.  The two agree as long as every file keeps one name, its
size is what its extents say, and nothing moves the size of an inode the scan passes by.
-/
import Nufs.Proofs.Metadata.UsageWalk

namespace Nufs.Metadata

open Relation List Finmap Op

variable {cfg : Config} {R : InodeID → Prop} {base : InodeID → InodeID} {id : InodeID}
  {row row' : InodeRow} {rows rows' : Rows Value} {m : InodeMetaV2} {refs : List ExtentRef}

/-! ### Extents and sizes -/

/-- The row of an extent gives the length. -/
def HasLength (rows : Rows Value) (ref : ExtentRef) (len : Int) : Prop :=
  ∃ ext, rows.lookup (.extentMeta ref.extentID) = some (.extent ext) ∧ ext.logicalLen = len

/-- The extents are there and have the size together. -/
def Measured (rows : Rows Value) (refs : List ExtentRef) (size : Int) : Prop :=
  ∃ lens, List.Forall₂ (HasLength rows) refs lens ∧ lens.sum = size

/-- Extents keep their lengths. -/
def SameLengths (rows rows' : Rows Value) : Prop :=
  ∀ ref len, HasLength rows ref len → HasLength rows' ref len

/-- The size of a file is what its extents say. -/
structure Accounted (rows : Rows Value) (id : InodeID) (m : InodeMetaV2) : Prop where
  fresh : m.layout = .empty → m.extentRoot = 0 ∧ m.extentPageCount = 0
  inlined : ∀ ext, m.layout = .inlineExtent ext → ext.logicalLen = m.size
  kept : ∃ refs, Keeper rows id m refs ∧ (m.layout ≠ .empty → Measured rows refs m.size)

theorem SameLengths.of_extents
    (h : ∀ id, rows'.lookup (.extentMeta id) = rows.lookup (.extentMeta id)) :
    SameLengths rows rows' := by
  rintro ref len ⟨ext, hext, hlen⟩
  exact ⟨ext, (h _).trans hext, hlen⟩

theorem Rewritten.sameLengths (h : Rewritten cfg id row row' rows rows') :
    SameLengths rows rows' := by
  exact .of_extents fun x =>
    h.others _ nofun (not_isStats_extentMeta x) (not_isPageOf_extentMeta _ x)

variable {size : Int}

theorem Measured.mono (h : Measured rows refs size) (hlen : SameLengths rows rows') :
    Measured rows' refs size := by
  obtain ⟨lens, hall, hsum⟩ := h
  exact ⟨lens, hall.imp hlen, hsum⟩

theorem Measured.append (h : Measured rows refs size) {ref : ExtentRef} {len : Int}
    (hlen : HasLength rows ref len) : Measured rows (refs ++ [ref]) (size + len) := by
  obtain ⟨lens, hall, hsum⟩ := h
  refine ⟨lens ++ [len], rel_append hall (.cons hlen .nil), ?_⟩
  rw [sum_append, hsum, sum_singleton]

theorem Measured.extentBytes (h : Measured rows refs size) : rows.extentBytes refs = .ok size := by
  obtain ⟨lens, hall, rfl⟩ := h
  have hread : ∃ exts, (refs.mapM fun ref => rows.getExtentMeta ref.extentID) = .ok exts ∧
      exts.map ExtentMeta.logicalLen = lens := by
    induction hall with
    | nil => exact ⟨[], rfl, rfl⟩
    | @cons ref len refs lens hlen _ ih =>
      obtain ⟨ext, hext, hlen⟩ := hlen
      obtain ⟨exts, hexts, hmap⟩ := ih
      have hget : rows.getExtentMeta ref.extentID = .ok ext := by
        unfold Rows.getExtentMeta
        rw [hext]
      refine ⟨ext :: exts, ?_, ?_⟩
      · rw [mapM_cons, hget, hexts]
        rfl
      · rw [map_cons, hlen, hmap]
  obtain ⟨exts, hexts, hmap⟩ := hread
  unfold Rows.extentBytes
  rw [hexts, ← hmap]
  rfl

section Transfer

variable (hrow : rows'.HasInode id row') (hid : row'.asV2.id = m.id)
  (hlayout : row'.asV2.layout = m.layout) (hroot : row'.asV2.extentRoot = m.extentRoot)
  (hcount : row'.asV2.extentPageCount = m.extentPageCount)
  (hpages : ∀ r p, rows'.lookup (.extentPage id r p) = rows.lookup (.extentPage id r p))
include hrow hid hlayout hroot hcount hpages

/-- A keeper of a row with the same extents, over the same pages. -/
theorem Keeper.transfer (h : Keeper rows id m refs) : Keeper rows' id row'.asV2 refs where
  row := ⟨row', hrow, rfl⟩
  id_eq := hid.trans h.id_eq
  typed := fun r p v hv => h.typed r p v ((hpages r p).symm.trans hv)
  above := fun r p hr => (hpages r p).trans (h.above r p (hroot ▸ hr))
  lists := by
    have hlists := h.lists
    unfold Lists at hlists ⊢
    rw [hlayout, hroot, hcount]
    cases hl : m.layout with
    | empty | inlineExtent ext => rw [hl] at hlists; exact hlists
    | extentPages =>
      rw [hl] at hlists
      obtain ⟨page, hin, hrefs⟩ := hlists
      refine ⟨page, ⟨fun p hp => ?_, fun hpos => (hpages _ _).trans (hin.last hpos)⟩, hrefs⟩
      rw [resolvePage_congr fun r _ => hpages r p]
      exact hin.reads p hp

theorem Accounted.transfer (h : Accounted rows id m)
    (hsize : m.layout ≠ .empty → row'.asV2.size = m.size)
    (hlen : SameLengths rows rows') : Accounted rows' id row'.asV2 := by
  obtain ⟨refs, hkeeper, hmeasured⟩ := h.kept
  refine ⟨fun hl => ?_, fun ext hl => ?_, refs,
    hkeeper.transfer hrow hid hlayout hroot hcount hpages, fun hl => ?_⟩
  · rw [hroot, hcount]
    exact h.fresh (hlayout ▸ hl)
  · have hinline := hlayout.symm.trans hl
    rw [hsize (by rw [hinline]; exact InodeLayout.noConfusion)]
    exact h.inlined ext hinline
  · rw [hsize (hlayout ▸ hl)]
    exact (hmeasured (hlayout ▸ hl)).mono hlen

end Transfer

namespace Accounted

theorem id_eq (h : Accounted rows id m) : m.id = id := by
  obtain ⟨refs, hkeeper, -⟩ := h.kept
  exact hkeeper.id_eq

/-- What the scan counts for the file is its size. -/
theorem extentBytesForInode (h : Accounted rows id m) : rows.extentBytesForInode m = m.size := by
  obtain ⟨refs, hkeeper, hmeasured⟩ := h.kept
  have hlists := hkeeper.lists
  unfold Rows.extentBytesForInode
  unfold Lists at hlists
  cases hl : m.layout with
  | empty => rfl
  | inlineExtent ext => exact h.inlined ext hl
  | extentPages =>
    rw [hl] at hlists
    obtain ⟨page, hpages, rfl⟩ := hlists
    rw [← hkeeper.id_eq] at hpages
    have hbytes := (hmeasured (by rw [hl]; exact InodeLayout.noConfusion)).extentBytes
    have hread : (rows.resolvePages m >>= rows.extentBytes) = .ok m.size := by
      rw [hpages.resolvePages]
      exact hbytes
    simp only [hread]

/-- A file that was just created has no extents. -/
theorem of_created (hrow : rows.HasInode id row) (hid : row.asV2.id = id)
    (hlayout : row.asV2.layout = .empty)
    (hfresh : row.asV2.extentRoot = 0 ∧ row.asV2.extentPageCount = 0)
    (hpages : ∀ r p, rows.lookup (.extentPage id r p) = none) : Accounted rows id row.asV2 := by
  refine ⟨fun _ => hfresh, fun ext hl => ?_, [], ⟨⟨row, hrow, rfl⟩, hid, fun r p v hv => ?_,
    fun r p _ => hpages r p, ?_⟩, fun hne => absurd hlayout hne⟩
  · rw [hlayout] at hl
    cases hl
  · rw [hpages] at hv
    cases hv
  · unfold Lists
    rw [hlayout]

end Accounted

/-! ### The files of a bucket, as rows change -/

section Files

variable {b : InodeID}

theorem fileUsage_of_missing (h : rows.lookup (.inode id) = none) :
    rows.fileUsage b (.inode id) = 0 := by
  unfold Rows.fileUsage
  rw [h]

variable {k : Key}

theorem fileUsage_congr (h : rows'.lookup k = rows.lookup k) :
    rows'.fileUsage b k = rows.fileUsage b k := by
  unfold Rows.fileUsage
  rw [h]

theorem fileUsage_eq_zero (h : ∀ x, k ≠ .inode x) : rows.fileUsage b k = 0 := by
  by_contra hne
  obtain ⟨x, -, rfl, -⟩ := exists_row_of_fileUsage hne
  exact h x rfl

theorem fileUsage_of_directory (h : ∀ row, rows.HasInode id row → row.asV2.type = .directory) :
    rows.fileUsage b (.inode id) = 0 := by
  by_contra hne
  obtain ⟨x, row, heq, hrow, hfile, -⟩ := exists_row_of_fileUsage hne
  injection heq with hx
  exact hfile (h row (hx ▸ hrow))

theorem filesUsage_eq_sum {s : Finset Key} (hs : rows.keys ⊆ s) :
    rows.filesUsage b = ∑ k ∈ s, rows.fileUsage b k := by
  refine Finset.sum_subset hs fun k _ hk => ?_
  by_contra hne
  obtain ⟨x, row, rfl, hrow, -⟩ := exists_row_of_fileUsage hne
  exact hk (mem_keys_of_lookup hrow)

/-- One inode at most counts otherwise than before. -/
theorem filesUsage_update
    (h : ∀ x, x ≠ id → rows'.fileUsage b (.inode x) = rows.fileUsage b (.inode x)) :
    rows'.filesUsage b =
      rows.filesUsage b - rows.fileUsage b (.inode id) + rows'.fileUsage b (.inode id) := by
  have hs : rows.keys ⊆ insert (.inode id) (rows.keys ∪ rows'.keys) :=
    fun k hk => Finset.mem_insert_of_mem (Finset.mem_union_left _ hk)
  have hs' : rows'.keys ⊆ insert (.inode id) (rows.keys ∪ rows'.keys) :=
    fun k hk => Finset.mem_insert_of_mem (Finset.mem_union_right _ hk)
  have hmem : Key.inode id ∈ insert (.inode id) (rows.keys ∪ rows'.keys) :=
    Finset.mem_insert_self _ _
  rw [filesUsage_eq_sum hs, filesUsage_eq_sum hs', ← Finset.add_sum_erase _ (rows.fileUsage b) hmem,
    ← Finset.add_sum_erase _ (rows'.fileUsage b) hmem]
  have hrest : ∀ k ∈ (insert (.inode id) (rows.keys ∪ rows'.keys)).erase (.inode id),
      rows'.fileUsage b k = rows.fileUsage b k := by
    intro k hk
    by_cases hinode : ∃ x, k = .inode x
    · obtain ⟨x, rfl⟩ := hinode
      exact h x fun heq => (Finset.mem_erase.mp hk).1 (heq ▸ rfl)
    · have hne : ∀ x, k ≠ .inode x := fun x hx => hinode ⟨x, hx⟩
      rw [fileUsage_eq_zero hne, fileUsage_eq_zero hne]
  rw [Finset.sum_congr rfl hrest, add_sub_cancel_left, add_comm]

theorem filesUsage_congr (h : ∀ x, rows'.fileUsage b (.inode x) = rows.fileUsage b (.inode x)) :
    rows'.filesUsage b = rows.filesUsage b := by
  have hupdate := filesUsage_update fun x (_ : x ≠ 0) => h x
  rw [hupdate, h 0, sub_add_cancel]

end Files

/-! ### What every operation keeps -/

/-- Files are placed, their sizes are right, and the counters are those of the files. -/
structure Exact (R : InodeID → Prop) (base : InodeID → InodeID) (rows : Rows Value) : Prop
    extends Placed R rows where
  roots : ∀ r, R r → rows.bucketRoot r = base r
  accounted : ∀ id row, rows.lookup (.inode id) = some (.inode row) →
    row.asV2.type ≠ .directory → Accounted rows id row.asV2
  counted : ∀ b, b ≠ 0 → rows.bucketStats b = rows.filesUsage b

theorem bucketRoot_congr (hinode : rows'.lookup (.inode id) = rows.lookup (.inode id)) :
    rows'.bucketRoot id = rows.bucketRoot id := by
  unfold Rows.bucketRoot Rows.inode
  rw [hinode]

/-- Counters that moved in step with one row. -/
theorem counted_update (hcfg : cfg.useBucketStats = true) {root : InodeID} {bytes objects : Int}
    (h : ∀ b, b ≠ 0 → rows.bucketStats b = rows.filesUsage b)
    (hstats : ∀ b, rows'.bucketStats b = statsAfter cfg rows root bytes objects b)
    (hfiles : ∀ b, b ≠ 0 → rows'.filesUsage b =
      rows.filesUsage b + if root = b then (bytes, objects) else 0) :
    ∀ b, b ≠ 0 → rows'.bucketStats b = rows'.filesUsage b := by
  intro b hb
  rw [hstats, hfiles b hb, ← h b hb]
  unfold statsAfter
  by_cases hroot : root = b
  · subst hroot
    rw [if_pos ⟨hcfg, hb, rfl⟩, if_pos rfl]
    rfl
  · rw [if_neg fun hr => hroot hr.2.2.symm, if_neg hroot, add_zero]

namespace Exact

variable (h : Exact R base rows)
include h

/-- A step: names come and go, and every file is as it was or in order. -/
theorem step (hsound : Sound R rows') (hlen : SameLengths rows rows')
    (hroot : ∀ x, rows.lookup (.inode x) ≠ none → rows'.lookup (.inode x) ≠ none →
      rows'.bucketRoot x = rows.bucketRoot x)
    (hentries : ∀ p n e, rows'.lookup (.ns p n) = some (.entry e) →
      rows.lookup (.ns p n) = some (.entry e) ∨
        n ≠ [] ∧ rows'.bucketRoot e.inodeID = rows'.bucketRoot p)
    (hfiles : ∀ x row, rows'.HasInode x row → row.asV2.type ≠ .directory →
      (rows'.lookup (.inode x) = rows.lookup (.inode x) ∧
        ∀ r p, rows'.lookup (.extentPage x r p) = rows.lookup (.extentPage x r p)) ∨
      row.asV2.nlink = 1 ∧ Accounted rows' x row.asV2)
    (hcounted : ∀ b, b ≠ 0 → rows'.bucketStats b = rows'.filesUsage b) : Exact R base rows' := by
  have hrow : ∀ {rows : Rows Value} {x : InodeID} {t : FileType} {k : UInt32},
      rows.view.inode x = some (t, k) → rows.lookup (.inode x) ≠ none := by
    intro rows x t k hx
    obtain ⟨row, hrow, -⟩ := row_of_view hx
    rw [hrow]
    exact Option.some_ne_none _
  refine ⟨⟨hsound, fun p => ?_, fun p n e he => ?_, fun x row hx hfile => ?_⟩, fun r hr => ?_,
    fun x row hx hfile => ?_, hcounted⟩
  · cases hv : rows'.lookup (.ns p []) with
    | none => rfl
    | some v =>
      obtain ⟨e, rfl⟩ := hsound.typed.entries p [] v hv
      rcases hentries p [] e hv with hold | ⟨hne, -⟩
      · rw [h.named] at hold
        cases hold
      · exact absurd rfl hne
  · rcases hentries p n e he with hold | ⟨-, hnew⟩
    · obtain ⟨k, hdir⟩ := h.sound.tree.dirs p n _ _ (view_entry hold)
      obtain ⟨k', hkind⟩ := h.sound.tree.kinds p n _ _ (view_entry hold)
      obtain ⟨j, hdir'⟩ := hsound.tree.dirs p n _ _ (view_entry he)
      obtain ⟨j', hkind'⟩ := hsound.tree.kinds p n _ _ (view_entry he)
      rw [hroot _ (hrow hkind) (hrow hkind'), hroot _ (hrow hdir) (hrow hdir')]
      exact h.inherits p n e hold
    · exact hnew
  · rcases hfiles x row hx hfile with ⟨hsame, -⟩ | ⟨hone, -⟩
    · exact h.single x row (hsame.symm.trans hx) hfile
    · exact hone
  · obtain ⟨k, hdir⟩ := h.sound.tree.roots r hr
    obtain ⟨k', hdir'⟩ := hsound.tree.roots r hr
    rw [hroot r (hrow hdir) (hrow hdir')]
    exact h.roots r hr
  · rcases hfiles x row hx hfile with ⟨hsame, hpages⟩ | ⟨-, hacc⟩
    · exact (h.accounted x row (hsame.symm.trans hx) hfile).transfer hx rfl rfl rfl rfl hpages
        (fun _ => rfl) hlen
    · exact hacc

/-- Nothing but rows of extents and of the free list differs. -/
theorem congr (hsame : ∀ k, (∀ c, k ≠ .extentMeta c) → Visible k → rows'.lookup k = rows.lookup k)
    (hlen : SameLengths rows rows') : Exact R base rows' := by
  have hns : ∀ p n, rows'.lookup (.ns p n) = rows.lookup (.ns p n) :=
    fun p n => hsame _ (fun _ => nofun) fun _ => nofun
  have hinode : ∀ id, rows'.lookup (.inode id) = rows.lookup (.inode id) :=
    fun id => hsame _ (fun _ => nofun) fun _ => nofun
  refine h.step (h.sound.congr hns hinode) hlen (fun x _ _ => bucketRoot_congr (hinode x))
    (fun p n e he => .inl ((hns p n).symm.trans he)) (fun x row _ _ => .inl ⟨hinode x, ?_⟩) ?_
  · exact fun r p => hsame _ (fun _ => nofun) fun _ => nofun
  · intro b hb
    rw [bucketStats_of_lookup (hsame _ (fun _ => nofun) fun _ => nofun),
      filesUsage_congr fun x => fileUsage_congr (hinode x)]
    exact h.counted b hb

theorem same (hsame : SameRows rows rows') : Exact R base rows' :=
  h.congr (fun k _ hk => hsame k hk) (.of_extents fun _ => hsame _ fun _ => nofun)

/-- The row of one file is rewritten. -/
theorem rewrite (hcfg : cfg.useBucketStats = true) (hre : Rewritten cfg id row row' rows rows')
    (hacc : row'.asV2.type ≠ .directory → Accounted rows' id row'.asV2)
    (hdir : row.asV2.type = .directory → row'.asV2.size = row.asV2.size) : Exact R base rows' := by
  have hns : ∀ p n, rows'.lookup (.ns p n) = rows.lookup (.ns p n) := by
    intro p n
    refine hre.others _ nofun (not_isStats_ns p n) ?_
    rintro ⟨r, q, heq⟩
    cases heq
  have hinode : ∀ x, x ≠ id → rows'.lookup (.inode x) = rows.lookup (.inode x) := fun x hx =>
    hre.others _ (inode_ne hx) (not_isStats_inode x) (not_isPageOf_inode x)
  have hview : rows'.view = rows.view := by
    have hkind : ∀ x, rows'.view.inode x = rows.view.inode x := by
      intro x
      by_cases hx : x = id
      · rw [hx, view_inode hre.written, view_inode hre.found]
        show some (row'.asV1.type, row'.asV1.nlink) = some (row.asV1.type, row.asV1.nlink)
        rw [← asV2_type, ← asV2_nlink, hre.type, hre.nlink, asV2_type, asV2_nlink]
      · exact view_inode (hinode x hx)
    have hentry : ∀ p n, rows'.view.entry p n = rows.view.entry p n :=
      fun p n => view_entry (hns p n)
    exact congrArg₂ View.mk (funext fun p => funext fun n => hentry p n) (funext hkind)
  have hsound : Sound R rows' := by
    refine ⟨⟨fun p n v hv => h.sound.typed.entries p n v ((hns p n).symm.trans hv),
      fun x v hv => ?_⟩, hview ▸ h.sound.tree⟩
    by_cases hx : x = id
    · rw [hx, hre.written] at hv
      exact ⟨row', (Option.some.inj hv).symm⟩
    · exact h.sound.typed.inodes x v ((hinode x hx).symm.trans hv)
  refine h.step hsound hre.sameLengths (fun x _ _ => ?_)
    (fun p n e he => .inl ((hns p n).symm.trans he)) (fun x r hr hfile => ?_) ?_
  · by_cases hx : x = id
    · rw [hx, bucketRoot_of_lookup hre.written, bucketRoot_of_lookup hre.found, hre.root]
    · exact bucketRoot_congr (hinode x hx)
  · by_cases hx : x = id
    · subst hx
      obtain rfl := inode_unique hre.written hr
      exact .inr ⟨hre.nlink.trans (h.single x row hre.found (hre.type ▸ hfile)), hacc hfile⟩
    · refine .inl ⟨hinode x hx, fun q p => hre.others _ nofun ?_ ?_⟩
      · rintro ⟨b, heq⟩
        cases heq
      · rintro ⟨q', p', heq⟩
        injection heq with hxid
        exact hx hxid
  · refine counted_update hcfg h.counted hre.stats fun b _ => ?_
    rw [filesUsage_update fun x hx => fileUsage_congr (hinode x hx),
      fileUsage_of_lookup hre.written, fileUsage_of_lookup hre.found, hre.type, hre.root]
    by_cases hb : row.asV2.bucketRoot = b
    · by_cases htype : row.asV2.type = .directory
      · rw [if_neg fun hc => hc.1 htype, if_neg fun hc => hc.1 htype, hdir htype, if_pos hb,
          sub_zero, Int.sub_self]
        rfl
      · rw [if_pos ⟨htype, hb⟩, if_pos ⟨htype, hb⟩, if_pos hb, sub_add_eq_add_sub, add_sub_assoc]
        rfl
    · rw [if_neg fun hc => hb hc.2, if_neg fun hc => hb hc.2, if_neg hb, sub_zero]

variable {parent : InodeID} {name : List Char} {d : DirEntry}

variable {now : Int}

theorem createFile (hcfg : cfg.useBucketStats = true) {type : FileType} {bytes : Int}
    (hnew : FileCreated cfg rows rows' type bytes (rows.bucketRoot parent) parent name now id)
    (htype : type ≠ .directory) (hdir : rows.view.IsDir parent) (hname : name ≠ [])
    (hpages : ∀ r p, rows.lookup (.extentPage id r p) = none)
    (hbytes : bytes = 0 ∨ rows.bucketRoot parent = 0) : Exact R base rows' := by
  have hinode : ∀ x, x ≠ id → rows'.lookup (.inode x) = rows.lookup (.inode x) := fun x hx =>
    hnew.others _ Key.noConfusion (inode_ne hx) (not_isStats_inode x) fun _ => Key.noConfusion
  have hdata : SameData rows rows' := by
    refine ⟨fun x r p => hnew.others _ Key.noConfusion Key.noConfusion ?_ fun _ => Key.noConfusion,
      fun x => hnew.others _ Key.noConfusion Key.noConfusion (not_isStats_extentMeta x)
        fun _ => Key.noConfusion⟩
    rintro ⟨b, heq⟩
    cases heq
  have hne : ∀ x, rows.lookup (.inode x) ≠ none → x ≠ id := by
    rintro x hx rfl
    exact hx hnew.id_free
  have hparent : parent ≠ id := by
    obtain ⟨k, hk⟩ := hdir
    obtain ⟨row, hrow, -⟩ := row_of_view hk
    exact hne parent (by rw [hrow]; exact Option.some_ne_none _)
  refine h.step (h.sound.createFile hnew hdir) (.of_extents hdata.extents)
    (fun x hx _ => bucketRoot_congr (hinode x (hne x hx))) ?_ ?_ ?_
  · intro p n e he
    by_cases hkey : (p, n) = (parent, name)
    · obtain ⟨rfl, rfl⟩ := Prod.mk.inj hkey
      rw [hnew.entry] at he
      obtain rfl := Value.entry.inj (Option.some.inj he)
      refine .inr ⟨hname, ?_⟩
      rw [bucketRoot_of_lookup hnew.row, bucketRoot_congr (hinode p hparent)]
      rfl
    · rw [hnew.others _ (ns_ne hkey) Key.noConfusion (not_isStats_ns p n)
        fun _ => Key.noConfusion] at he
      exact .inl he
  · intro x row hx _
    by_cases hxid : x = id
    · subst hxid
      obtain rfl := inode_unique hnew.row hx
      exact .inr ⟨rfl, .of_created hnew.row rfl rfl ⟨rfl, rfl⟩ fun r p =>
        (hdata.pages x r p).trans (hpages r p)⟩
    · exact .inl ⟨hinode x hxid, hdata.pages x⟩
  · refine counted_update hcfg h.counted hnew.stats fun b hb => ?_
    rw [filesUsage_update fun x hx => fileUsage_congr (hinode x hx),
      fileUsage_of_missing hnew.id_free, fileUsage_of_lookup hnew.row, sub_zero]
    by_cases hroot : rows.bucketRoot parent = b
    · have hzero : bytes = 0 := hbytes.resolve_right fun hz => hb (hroot.symm.trans hz)
      rw [if_pos ⟨htype, hroot⟩, if_pos hroot, hzero]
      rfl
    · rw [if_neg fun hc => hroot hc.2, if_neg hroot]

theorem unlink (hcfg : cfg.useBucketStats = true) {p : InodeID} {n : List Char}
    {row : Option InodeRow} (hgone : Unlinked cfg rows rows' p n d row) : Exact R base rows' := by
  obtain ⟨k, hkind⟩ := h.sound.tree.kinds p n _ _ (view_entry hgone.named)
  obtain ⟨r, hr, htype, -⟩ := row_of_view hkind
  have hfile : r.asV2.type ≠ .directory := by
    rw [asV2_type, htype]
    exact hgone.file
  have hlast : r.unlinked = none := unlinked_eq_none.mpr (h.single _ r hr hfile)
  obtain rfl : row = some r := by
    have hfound := hgone.found
    rw [inode_eq_ok.mpr hr] at hfound
    exact (Except.ok.inj hfound).symm
  have hnone : rows'.lookup (.inode d.inodeID) = none := by
    rw [hgone.inode]
    show (r.unlinked).map Value.inode = none
    rw [hlast]
    rfl
  have hne : ∀ x, rows'.lookup (.inode x) ≠ none → x ≠ d.inodeID := by
    rintro x hx rfl
    exact hx hnone
  refine h.step (h.sound.unlink hgone) (.of_extents hgone.sameData.extents)
    (fun x _ hx => bucketRoot_congr (hgone.inode_of_ne (hne x hx))) ?_ ?_ ?_
  · intro q m e he
    by_cases hkey : (q, m) = (p, n)
    · cases hkey
      rw [hgone.gone] at he
      cases he
    · exact .inl ((hgone.entry_of_ne hkey).symm.trans he)
  · intro x row hx _
    have hx := hne x (by rw [hx]; exact Option.some_ne_none _)
    exact .inl ⟨hgone.inode_of_ne hx, hgone.sameData.pages x⟩
  have hstats : ∀ b, rows'.bucketStats b =
      statsAfter cfg rows r.asV2.bucketRoot (-r.asV2.size) (-1) b := by
    intro b
    rw [hgone.stats]
    unfold unlinkStats
    simp only [hlast]
  refine counted_update hcfg h.counted hstats fun b _ => ?_
  rw [filesUsage_update fun x hx => fileUsage_congr (hgone.inode_of_ne hx),
    fileUsage_of_missing hnone, fileUsage_of_lookup hr, add_zero]
  by_cases hroot : r.asV2.bucketRoot = b
  · rw [if_pos ⟨hfile, hroot⟩, if_pos hroot, sub_eq_add_neg]
    rfl
  · rw [if_neg fun hc => hroot hc.2, if_neg hroot, sub_zero, add_zero]

/-- A directory came or went; its parent is a directory too. -/
theorem directories (hsound : Sound R rows') {c : InodeID}
    (hothers : ∀ k, k ≠ .ns parent name → k ≠ .inode c →
      (k = .inode parent → ∀ row, rows.inode parent ≠ .ok (some row)) → Visible k →
      rows'.lookup k = rows.lookup k) (hrow : rows.HasInode parent row)
    (hrow' : rows'.HasInode parent row') (hparent : row.asV2.type = .directory ∧
      row'.asV2.type = .directory ∧ row'.asV2.bucketRoot = row.asV2.bucketRoot)
    (hone : rows.lookup (.inode c) = none ∨ rows'.lookup (.inode c) = none)
    (hchild : ∀ row, rows.HasInode c row ∨ rows'.HasInode c row → row.asV2.type = .directory)
    (hname : ∀ e, rows'.lookup (.ns parent name) = some (.entry e) →
      name ≠ [] ∧ rows'.bucketRoot e.inodeID = rows'.bucketRoot parent) : Exact R base rows' := by
  have hothers := fun k hns hc hp => hothers k hns hc fun heq => absurd heq hp
  have hdirs : ∀ x r, x = c ∨ x = parent → rows.HasInode x r ∨ rows'.HasInode x r →
      r.asV2.type = .directory := by
    rintro x r (rfl | rfl) hr
    · exact hchild r hr
    rcases hr with hr | hr
    · obtain rfl := inode_unique hrow hr
      exact hparent.1
    · obtain rfl := inode_unique hrow' hr
      exact hparent.2.1
  have hroot : ∀ x, rows.lookup (.inode x) ≠ none → rows'.lookup (.inode x) ≠ none →
      rows'.bucketRoot x = rows.bucketRoot x := by
    intro x hx hx'
    by_cases hp : x = parent
    · rw [hp, bucketRoot_of_lookup hrow', bucketRoot_of_lookup hrow, hparent.2.2]
    · refine bucketRoot_congr (hothers _ nofun (inode_ne ?_) (inode_ne hp) fun _ => nofun)
      rintro rfl
      exact hone.elim hx hx'
  have hzero : ∀ b x, x = c ∨ x = parent →
      rows.fileUsage b (.inode x) = 0 ∧ rows'.fileUsage b (.inode x) = 0 := fun b x hx =>
    ⟨fileUsage_of_directory fun row hrow => hdirs x row hx (.inl hrow),
      fileUsage_of_directory fun row hrow => hdirs x row hx (.inr hrow)⟩
  have hinode : ∀ x, ¬ (x = c ∨ x = parent) →
      rows'.lookup (.inode x) = rows.lookup (.inode x) := fun x hx =>
    hothers _ nofun (inode_ne fun hc => hx (.inl hc)) (inode_ne fun hp => hx (.inr hp))
      fun _ => nofun
  refine h.step hsound (.of_extents fun x => ?_) hroot ?_ ?_ ?_
  · exact hothers _ nofun nofun nofun fun _ => nofun
  · intro p n e he
    by_cases hkey : (p, n) = (parent, name)
    · cases hkey
      exact .inr (hname e he)
    · rw [hothers _ (ns_ne hkey) nofun nofun fun _ => nofun] at he
      exact .inl he
  · intro x row hx hfile
    refine .inl ⟨hinode x fun hc => hfile (hdirs x row hc (.inr hx)), fun r p => ?_⟩
    exact hothers _ nofun nofun nofun fun _ => nofun
  intro b hb
  rw [bucketStats_of_lookup (hothers _ nofun nofun nofun fun _ => nofun), h.counted b hb]
  refine (filesUsage_congr fun x => ?_).symm
  by_cases hx : x = c ∨ x = parent
  · rw [(hzero b x hx).1, (hzero b x hx).2]
  · exact fileUsage_congr (hinode x hx)

theorem move {oldParent newParent : InodeID} {oldName newName : List Char}
    (hsound : Sound R rows') (hsource : rows.lookup (.ns oldParent oldName) = some (.entry d))
    (hbucket : rows.bucketRoot oldParent = rows.bucketRoot newParent) (hname : newName ≠ [])
    (hrows' : rows' = (rows.insert (.ns newParent newName)
      (.entry { d with name := newName })).erase (.ns oldParent oldName)) : Exact R base rows' := by
  have hothers : ∀ k, (∀ p n, k ≠ .ns p n) → rows'.lookup k = rows.lookup k := by
    intro k hk
    rw [hrows', lookup_erase_ne (hk _ _), lookup_insert_of_ne _ (hk _ _)]
  have hinode : ∀ x, rows'.lookup (.inode x) = rows.lookup (.inode x) :=
    fun x => hothers _ fun _ _ => nofun
  refine h.step hsound (.of_extents fun x => hothers _ fun _ _ => nofun)
    (fun x _ _ => bucketRoot_congr (hinode x)) ?_
    (fun x row _ _ => .inl ⟨hinode x, fun r p => hothers _ fun _ _ => nofun⟩) ?_
  · intro p n e he
    rw [hrows'] at he
    by_cases hold : Key.ns p n = .ns oldParent oldName
    · rw [hold, lookup_erase] at he
      cases he
    rw [lookup_erase_ne hold] at he
    by_cases hnew : Key.ns p n = .ns newParent newName
    · rw [hnew, lookup_insert] at he
      obtain rfl := Value.entry.inj (Option.some.inj he)
      injection hnew with hp hn
      refine .inr ⟨hn ▸ hname, ?_⟩
      rw [bucketRoot_congr (hinode _), bucketRoot_congr (hinode _), hp, ← hbucket]
      exact h.inherits oldParent oldName d hsource
    · rw [lookup_insert_of_ne _ hnew] at he
      exact .inl he
  · intro b hb
    rw [bucketStats_of_lookup (hothers _ fun _ _ => nofun), h.counted b hb]
    exact (filesUsage_congr fun x => fileUsage_congr (hinode x)).symm

theorem mkDir (hnew : DirCreated rows rows' parent name now id) (hdir : rows.view.IsDir parent)
    (hname : name ≠ []) : Exact R base rows' := by
  obtain ⟨k, hk⟩ := hdir
  obtain ⟨row, hrow, htype, -⟩ := row_of_view hk
  have habove := hnew.above row (inode_eq_ok.mpr hrow)
  refine h.directories (h.sound.mkDir hnew ⟨k, hk⟩) hnew.others hrow habove
    ⟨(asV2_type row).trans htype, htype, (asV2_bucketRoot row).symm⟩ (.inl hnew.id_free) ?_ ?_
  · rintro r (hr | hr)
    · cases hnew.id_free.symm.trans hr
    · obtain rfl := inode_unique hnew.row hr
      rfl
  · intro e he
    rw [hnew.entry] at he
    obtain rfl := Value.entry.inj (Option.some.inj he)
    refine ⟨hname, ?_⟩
    rw [bucketRoot_of_lookup habove, bucketRoot_of_lookup hnew.row]
    exact (bucketRoot_of_lookup hrow).trans (asV2_bucketRoot row)

theorem rmDir (hgone : DirRemoved rows rows' parent name d) : Exact R base rows' := by
  obtain ⟨k, hk⟩ := h.sound.tree.dirs parent name _ _ (view_entry hgone.named)
  obtain ⟨row, hrow, htype, -⟩ := row_of_view hk
  obtain ⟨j, hj⟩ := h.sound.tree.kinds parent name _ _ (view_entry hgone.named)
  refine h.directories (h.sound.rmDir hgone) hgone.others hrow
    (hgone.above row (inode_eq_ok.mpr hrow))
    ⟨(asV2_type row).trans htype, htype, (asV2_bucketRoot row).symm⟩ (.inr hgone.inode) ?_ ?_
  · rintro r (hr | hr)
    · rw [view_inode hr] at hj
      rw [asV2_type, (Prod.mk.inj (Option.some.inj hj)).1, hgone.directory]
    · cases hgone.inode.symm.trans hr
  · intro e he
    cases hgone.gone.symm.trans he

/-- The row of a file is rewritten with extents that have its size. -/
theorem extents (hcfg : cfg.useBucketStats = true)
    (hre : Rewritten cfg id row (.v2 m) rows rows') (hfile : row.asV2.type ≠ .directory)
    (hkeeper : Keeper rows' id m refs) (hlayout : m.layout ≠ .empty)
    (hinline : ∀ ext, m.layout = .inlineExtent ext → ext.logicalLen = m.size)
    (hmeasured : Measured rows refs m.size) : Exact R base rows' :=
  h.rewrite hcfg hre (fun _ => ⟨fun hl => absurd hl hlayout, hinline, refs, hkeeper,
    fun _ => hmeasured.mono hre.sameLengths⟩) fun hdir => absurd hdir hfile

end Exact

/-! ### The operations -/

/-- An extent that has a row keeps its length. -/
def KeepsLength (rows : Rows Value) (ext : ExtentMeta) : Prop :=
  ∀ old, rows.lookup (.extentMeta ext.id) = some (.extent old) → old.logicalLen = ext.logicalLen

section Ops

variable {l : Leader} (h : Exact R base l.rows) (hcfg : cfg.useBucketStats = true)

variable {ext : ExtentMeta} {now : Int}

theorem KeepsLength.insert (h : KeepsLength rows ext) :
    SameLengths rows (rows.insert (.extentMeta ext.id) (.extent ext)) := by
  rintro ref len ⟨old, hold, rfl⟩
  by_cases hid : ref.extentID = ext.id
  · rw [hid] at hold
    refine ⟨ext, ?_, (h old hold).symm⟩
    rw [hid, lookup_insert]
  · refine ⟨old, ?_, rfl⟩
    rw [lookup_insert_of_ne _ fun heq => hid (Key.extentMeta.inj heq), hold]

include h in
theorem putExtentMeta_exact (cfg : Config) (hkeep : KeepsLength l.rows ext) :
    ∃ l', putExtentMeta cfg ext l = (.ok (), l') ∧ Exact R base l'.rows ∧
      (∀ off, HasLength l'.rows ⟨ext.id, off⟩ ext.logicalLen) ∧
      (∀ k, k ≠ .extentMeta ext.id → l'.rows.lookup k = l.rows.lookup k) ∧
      SameLengths l.rows l'.rows := by
  obtain ⟨l', hl', hrows⟩ := putExtentMeta_ok cfg ext l
  have hothers : ∀ k, k ≠ .extentMeta ext.id → l'.rows.lookup k = l.rows.lookup k := by
    intro k hk
    rw [hrows, lookup_insert_of_ne _ hk]
  have hlen : SameLengths l.rows l'.rows := by
    rw [hrows]
    exact hkeep.insert
  refine ⟨l', hl', h.congr (fun k hk _ => hothers k (hk _)) hlen, fun off => ⟨ext, ?_, rfl⟩,
    hothers, hlen⟩
  rw [hrows, lookup_insert]

variable {writes : List ExtentWrite}

include h in
theorem putExtentMetas_exact (cfg : Config) (hkeep : ∀ w ∈ writes, KeepsLength l.rows w.extent)
    (hagree : ∀ w ∈ writes, ∀ w' ∈ writes, w.extent.id = w'.extent.id →
      w.extent.logicalLen = w'.extent.logicalLen) :
    ∃ l', putExtentMetas cfg writes l = (.ok (), l') ∧ Exact R base l'.rows ∧
      (∀ w ∈ writes, ∀ off, HasLength l'.rows ⟨w.extent.id, off⟩ w.extent.logicalLen) ∧
      (∀ x, l'.rows.lookup (.inode x) = l.rows.lookup (.inode x)) ∧ SameLengths l.rows l'.rows := by
  induction writes generalizing l with
  | nil => exact ⟨l, rfl, h, fun w hw => absurd hw not_mem_nil, fun _ => rfl,
      fun _ _ hlen => hlen⟩
  | cons w writes ih =>
    obtain ⟨l1, hl1, h1, hw1, hothers1, hlen1⟩ :=
      putExtentMeta_exact h cfg (hkeep w mem_cons_self)
    have hkeep1 : ∀ w' ∈ writes, KeepsLength l1.rows w'.extent := by
      intro w' hw' old hold
      by_cases hid : w'.extent.id = w.extent.id
      · obtain ⟨ext, hext, hlen⟩ := hw1 0
        rw [hid, hext] at hold
        obtain rfl := Value.extent.inj (Option.some.inj hold)
        rw [hlen]
        exact (hagree w' (mem_cons_of_mem _ hw') w mem_cons_self hid).symm
      · rw [hothers1 _ fun heq => hid (Key.extentMeta.inj heq)] at hold
        exact hkeep w' (mem_cons_of_mem _ hw') old hold
    obtain ⟨l', hl', h', hall', hinode', hlen'⟩ := ih h1 hkeep1 fun a ha b hb =>
      hagree a (mem_cons_of_mem _ ha) b (mem_cons_of_mem _ hb)
    refine ⟨l', ?_, h', fun w' hw' off => ?_, fun x => ?_,
      fun ref len hr => hlen' ref len (hlen1 ref len hr)⟩
    · show (putExtentMeta cfg w.extent >>= fun _ => .putExtentMetas cfg writes) l = _
      rw [bind_ok hl1, hl']
    · rcases mem_cons.mp hw' with rfl | hw'
      · exact hlen' _ _ (hw1 off)
      · exact hall' w' hw' off
    · rw [hinode', hothers1 _ Key.noConfusion]

theorem getV2_missing (hrow : l.rows.lookup (.inode id) = none) :
    getV2 id l = (.error .inodeNotFound, l) := by
  have hget : getV2 id l = (Op.lift (l.rows.inode id) >>= asV2) l := rfl
  rw [hget, inode_eq_none.mpr hrow]
  rfl

theorem v2Row_of_lookup (hrow : rows.HasInode id row) : row.asV2 ∈ v2Row rows id := by
  unfold v2Row
  rw [hrow]
  exact rfl

include h in
theorem Exact.row_cases (x : InodeID) : l.rows.lookup (.inode x) = none ∨
    ∃ row, l.rows.lookup (.inode x) = some (.inode row) := by
  cases hv : l.rows.lookup (.inode x) with
  | none => exact .inl rfl
  | some v =>
    obtain ⟨row, rfl⟩ := h.sound.typed.inodes x v hv
    exact .inr ⟨row, rfl⟩

include h hcfg

theorem setInlineExtent_exact (hkeep : KeepsLength l.rows ext)
    (hsize : ∀ m ∈ v2Row l.rows id, m.type ≠ .directory ∧ size = ext.logicalLen) :
    Exact R base (setInlineExtent cfg now id ext size l).2.rows := by
  obtain ⟨l1, hl1, h1, hlen, hothers, -⟩ := putExtentMeta_exact h cfg hkeep
  have hinode := hothers (.inode id) nofun
  have hop : setInlineExtent cfg now id ext size l = setInlineRow cfg now id ext size l1 :=
    bind_ok hl1
  rw [hop]
  rcases h1.row_cases id with hnone | ⟨row, hrow⟩
  · unfold setInlineRow
    rw [bind_error (getV2_missing hnone)]
    exact h1
  obtain ⟨hfile, rfl⟩ := hsize row.asV2 (v2Row_of_lookup (hinode.symm.trans hrow))
  obtain ⟨refs, hkeeper, -⟩ := (h1.accounted id row hrow hfile).kept
  obtain ⟨l2, m, hl2, hkeeper2, hre, hlayout, hm⟩ :=
    hkeeper.setInlineRow hrow cfg now ext ext.logicalLen
  rw [hl2]
  refine h1.extents hcfg hre hfile hkeeper2 (hlayout ▸ InodeLayout.noConfusion) (fun e he => ?_) ?_
  · rw [hm, InodeLayout.inlineExtent.inj (hlayout.symm.trans he)]
  · rw [hm]
    exact ⟨[ext.logicalLen], .cons (hlen 0) .nil, sum_singleton⟩

theorem replaceExtents_exact (hkeep : ∀ w ∈ writes, KeepsLength l.rows w.extent)
    (hagree : ∀ w ∈ writes, ∀ w' ∈ writes, w.extent.id = w'.extent.id →
      w.extent.logicalLen = w'.extent.logicalLen)
    (hsize : ∀ m ∈ v2Row l.rows id, m.type ≠ .directory ∧
      size = (writes.map fun w => w.extent.logicalLen).sum ∧ m.extentRoot + 1 < 2 ^ 64 ∧
      (writes.length + maxExtentsPerPage - 1) / maxExtentsPerPage < 2 ^ 32) :
    Exact R base (replaceExtents cfg now id writes size l).2.rows := by
  obtain ⟨l1, hl1, h1, hlen, hinode, -⟩ := putExtentMetas_exact h cfg hkeep hagree
  have hop : replaceExtents cfg now id writes size l =
      replaceRows cfg now id writes size l1 := bind_ok hl1
  rw [hop]
  rcases h1.row_cases id with hnone | ⟨row, hrow⟩
  · unfold replaceRows
    rw [bind_error (getV2_missing hnone)]
    exact h1
  obtain ⟨hfile, hsum, hroot, hcount⟩ :=
    hsize row.asV2 (v2Row_of_lookup ((hinode id).symm.trans hrow))
  obtain ⟨refs, hkeeper, -⟩ := (h1.accounted id row hrow hfile).kept
  obtain ⟨l2, m, hl2, hkeeper2, hre, hlayout, hm⟩ :=
    hkeeper.replaceRows hrow hroot cfg now writes hcount size
  rw [hl2]
  refine h1.extents hcfg hre hfile hkeeper2 (hlayout ▸ InodeLayout.noConfusion) (fun e he => ?_)
    ⟨writes.map fun w => w.extent.logicalLen, ?_, hsum.symm.trans hm.symm⟩
  · cases hlayout.symm.trans he
  · rw [List.forall₂_map_left_iff, List.forall₂_map_right_iff, List.forall₂_same]
    exact fun w hw => hlen w hw w.offset

theorem appendExtent_exact {offset : Int} (hkeep : KeepsLength l.rows ext)
    (hsize : ∀ m ∈ v2Row l.rows id, m.type ≠ .directory ∧ (m.layout = .empty → m.size = 0) ∧
      m.extentRoot + 2 < 2 ^ 64 ∧
      (m.layout = .extentPages → 0 < m.extentPageCount ∧ m.extentPageCount + 1 < 2 ^ 32)) :
    Exact R base (appendExtent cfg now id ext offset l).2.rows := by
  obtain ⟨l1, hl1, h1, hlen, hothers, -⟩ := putExtentMeta_exact h cfg hkeep
  have hinode := hothers (.inode id) nofun
  have hop : appendExtent cfg now id ext offset l =
      appendRow cfg now id ⟨ext.id, offset⟩ ext.logicalLen l1 := bind_ok hl1
  rw [hop]
  rcases h1.row_cases id with hnone | ⟨row, hrow⟩
  · have hensure : ensurePages cfg now id l1 = (.error .inodeNotFound, l1) := by
      unfold ensurePages
      rw [bind_error (getV2_missing hnone)]
    unfold appendRow
    rw [bind_error hensure]
    exact h1
  obtain ⟨hfile, hempty, hroot, hcount⟩ := hsize row.asV2 (v2Row_of_lookup (hinode.symm.trans hrow))
  obtain ⟨refs, hkeeper, hmeasured⟩ := (h1.accounted id row hrow hfile).kept
  have hbefore : Measured l1.rows refs row.asV2.size := by
    by_cases hl : row.asV2.layout = .empty
    · have hlists := hkeeper.lists
      unfold Lists at hlists
      rw [hl] at hlists
      rw [hempty hl, show refs = [] from hlists]
      exact ⟨[], .nil, rfl⟩
    · exact hmeasured hl
  obtain ⟨l2, m, hl2, hkeeper2, hre, hlayout, hm⟩ :=
    hkeeper.appendRow hrow hroot hcount cfg now ⟨ext.id, offset⟩ ext.logicalLen
  rw [hl2]
  refine h1.extents hcfg hre hfile hkeeper2 (hlayout ▸ InodeLayout.noConfusion) (fun e he => ?_) ?_
  · cases hlayout.symm.trans he
  · rw [hm]
    exact hbefore.append (hlen offset)

/-- An update keeps what a file is and where, and moves the size only of a file without extents. -/
def UpdateInOrder (rows : Rows Value) (m : InodeMeta) : Prop :=
  ∃ row, rows.lookup (.inode m.id) = some (.inode row) ∧
    (row.asV2.layout = .empty → m.type = row.asV2.type) ∧ m.nlink = row.asV2.nlink ∧
    m.bucketRoot = row.asV2.bucketRoot ∧
    (m.size = row.asV2.size ∨ row.asV2.type ≠ .directory ∧ row.asV2.layout = .empty)

omit h hcfg in
theorem applyBatch_rows (cfg : Config) (ops : List (BatchOp Value)) (l : Leader) :
    (applyBatch cfg ops l).2.rows = l.rows ∨
      (applyBatch cfg ops l).2.rows = applyOps ops l.rows := by
  unfold applyBatch
  split_ifs
  · exact .inl rfl
  show (Fsm.apply cfg.codec l.rows ⟨l.term, some (.batch ops)⟩).2 = _ ∨
    (Fsm.apply cfg.codec l.rows ⟨l.term, some (.batch ops)⟩).2 = _
  unfold Fsm.apply
  cases Fsm.judge cfg.codec l.rows ⟨l.term, some (.batch ops)⟩ with
  | error e => exact .inl rfl
  | ok _ => exact .inr rfl

/-- Whichever row an update writes, the batch is the one of a rewritten row, or it is refused. -/
theorem updateInode_write {m : InodeMeta} (row' : InodeRow) (hrow : l.rows.HasInode m.id row)
    (hbatch : updateInodeBatch cfg l.rows now m = .ok (rowBatch cfg l.rows row.asV2.bucketRoot
      (row'.asV2.size - row.asV2.size) m.id row')) (htype : row'.asV2.type = row.asV2.type)
    (hnlink : row'.asV2.nlink = row.asV2.nlink) (hroot : row'.asV2.bucketRoot = row.asV2.bucketRoot)
    (hsame : row.asV2.type ≠ .directory → SameExtents row row')
    (hsize : row'.asV2.size = row.asV2.size ∨
      row.asV2.type ≠ .directory ∧ row.asV2.layout = .empty) :
    Exact R base (updateInode cfg now m l).2.rows := by
  have hrun : updateInode cfg now m l =
      (Op.lift (updateInodeBatch cfg l.rows now m) >>= applyBatch cfg) l := rfl
  rw [hrun, hbatch]
  rcases applyBatch_rows cfg (rowBatch cfg l.rows row.asV2.bucketRoot
    (row'.asV2.size - row.asV2.size) m.id row') l with hrows | hrows
  · exact hrows.symm ▸ h
  refine hrows.symm ▸ ?_
  have hre : Rewritten cfg m.id row row' l.rows _ := rewritten_rowBatch hrow htype hnlink hroot
  refine h.rewrite hcfg hre (fun hfile => ?_) fun hdir => ?_
  · rw [htype] at hfile
    have hext := hsame hfile
    exact (h.accounted m.id row hrow hfile).transfer hre.written hext.id hext.layout hext.root
      hext.count (fun r p => lookup_rowBatch_of_ne nofun not_isStats_page)
      (fun hne => hsize.resolve_right fun hempty => hne hempty.2) hre.sameLengths
  · exact hsize.resolve_right fun hfile => hfile.1 hdir

theorem updateInode_exact {m : InodeMeta} (hguard : UpdateInOrder l.rows m) :
    Exact R base (updateInode cfg now m l).2.rows := by
  obtain ⟨row, hrow, htype, hnlink, hroot, hsize⟩ := hguard
  have hbatch := updateInodeBatch_of_row cfg hrow now
  by_cases hlayout : row.asV2.layout = .empty
  · rw [if_pos hlayout] at hbatch
    refine updateInode_write h hcfg (.v1 { m with ctime := now }) hrow hbatch (htype hlayout)
      hnlink hroot (fun hfile => ?_) hsize
    obtain ⟨hzero, hcount⟩ := (h.accounted m.id row hrow hfile).fresh hlayout
    exact ⟨(h.accounted m.id row hrow hfile).id_eq.symm, hlayout.symm, hzero.symm, hcount.symm⟩
  rw [if_neg hlayout] at hbatch
  by_cases hbare : m.chunkMap = []
  · rw [if_neg (not_not_intro hbare)] at hbatch
    exact updateInode_write h hcfg (.v2 { row.asV2 with
        size := m.size, nlink := m.nlink, bucketRoot := m.bucketRoot, ctime := now }) hrow
      (hbatch.trans (by rw [← hroot]; rfl)) rfl hnlink hroot (fun _ => ⟨rfl, rfl, rfl, rfl⟩) hsize
  rw [if_pos hbare] at hbatch
  have hrefused : updateInode cfg now m l = (.error .inodeModelMismatch, l) := by
    show (Op.lift (updateInodeBatch cfg l.rows now m) >>= applyBatch cfg) l = _
    rw [hbatch]
    rfl
  rw [hrefused]
  exact h

theorem rename_exact {oldParent newParent : InodeID} {oldName newName : List Char}
    (hdir : l.rows.view.IsDir newParent) (hname : newName ≠ [])
    (hbelow : ∀ d, l.rows.lookup (.ns oldParent oldName) = some (.entry d) →
      ¬ ReflTransGen l.rows.view.Names d.inodeID newParent) (full : Bool) :
    Exact R base (Op.rename cfg oldParent oldName newParent newName full l).2.rows := by
  have hsound : Sound R (Op.rename cfg oldParent oldName newParent newName full l).2.rows :=
    h.sound.rename hdir hbelow full
  obtain ⟨rows1, hcleared, hmoves⟩ := rename_moves cfg l oldParent oldName newParent newName full
  have h1 : Exact R base rows1 := by
    rcases hcleared with rfl | ⟨d, row, hgone⟩
    · exact h
    · exact h.unlink hcfg hgone
  rcases hmoves with hstop | ⟨entry, -, hsource1, -, hbucket, hrows⟩
  · rw [hstop]
    exact h1
  · exact h1.move hsound hsource1 (hbucket hcfg) hname hrows

end Ops

/-! ### Any number of calls -/

/-- No page is left of an earlier file with the number. -/
def NoPages (rows : Rows Value) (id : InodeID) : Prop :=
  ∀ r p, rows.lookup (.extentPage id r p) = none

/-- A name that is not empty in a directory, for a number without pages. -/
def CreateInOrder (rows : Rows Value) (parent : InodeID) (name : List Char) (mint retry : Mint) :
    Prop :=
  rows.view.IsDir parent ∧ name ≠ [] ∧ NoPages rows mint.id ∧ NoPages rows retry.id

/-- What callers have to see to for the counters to be those of the scan. -/
def Countable (l : Leader) : Call → Prop
  | .createFile parent name _ mint retry => CreateInOrder l.rows parent name mint retry
  | .symlink parent name target _ mint retry =>
    CreateInOrder l.rows parent name mint retry ∧ (target = [] ∨ l.rows.bucketRoot parent = 0)
  | .mkDir parent name _ _ _ => l.rows.view.IsDir parent ∧ name ≠ []
  | .unlink _ _ _ => True
  | .rmDir _ _ _ => True
  | .link parent name target _ => l.rows.lookup (.ns parent name) ≠ none ∨
      ∀ m ∈ v2Row l.rows target, m.type = .directory
  | .rename oldParent oldName newParent newName _ => l.rows.view.IsDir newParent ∧ newName ≠ [] ∧
      ∀ d, l.rows.lookup (.ns oldParent oldName) = some (.entry d) →
        ¬ ReflTransGen l.rows.view.Names d.inodeID newParent
  | .updateInode _ m => UpdateInOrder l.rows m
  | .setInlineExtent _ id ext size => KeepsLength l.rows ext ∧
      ∀ m ∈ v2Row l.rows id, m.type ≠ .directory ∧ size = ext.logicalLen
  | .appendExtent _ id ext _ => KeepsLength l.rows ext ∧
      ∀ m ∈ v2Row l.rows id, m.type ≠ .directory ∧ (m.layout = .empty → m.size = 0) ∧
        m.extentRoot + 2 < 2 ^ 64 ∧
        (m.layout = .extentPages → 0 < m.extentPageCount ∧ m.extentPageCount + 1 < 2 ^ 32)
  | .replaceExtents _ id writes size => (∀ w ∈ writes, KeepsLength l.rows w.extent) ∧
      (∀ w ∈ writes, ∀ w' ∈ writes, w.extent.id = w'.extent.id →
        w.extent.logicalLen = w'.extent.logicalLen) ∧
      ∀ m ∈ v2Row l.rows id, m.type ≠ .directory ∧
        size = (writes.map fun w => w.extent.logicalLen).sum ∧ m.extentRoot + 1 < 2 ^ 64 ∧
        (writes.length + maxExtentsPerPage - 1) / maxExtentsPerPage < 2 ^ 32
  | _ => False

theorem CreateInOrder.noPages {parent : InodeID} {name : List Char} {mint retry : Mint}
    (h : CreateInOrder rows parent name mint retry) (hid : id = mint.id ∨ id = retry.id) :
    NoPages rows id := by
  obtain ⟨-, -, hmint, hretry⟩ := h
  rcases hid with rfl | rfl
  · exact hmint
  · exact hretry

variable {l : Leader}

theorem Exact.call (h : Exact R base l.rows) (hcfg : cfg.useBucketStats = true) {c : Call}
    (hguard : Countable l c) : Exact R base (l.call cfg c).rows := by
  rcases call_effect cfg l c with hsame | heffect
  · exact h.same hsame
  cases c with
  | createFile parent name now mint retry =>
    obtain ⟨id, hnew, hid⟩ := heffect
    exact h.createFile hcfg hnew FileType.noConfusion hguard.1 hguard.2.1
      (hguard.noPages hid) (.inl rfl)
  | symlink parent name target now mint retry =>
    obtain ⟨id, hnew, hid⟩ := heffect
    refine h.createFile hcfg hnew FileType.noConfusion hguard.1.1 hguard.1.2.1
      (hguard.1.noPages hid) (hguard.2.imp_left fun hnil => ?_)
    rw [hnil]
    rfl
  | mkDir parent name now mint retry =>
    obtain ⟨id, hnew⟩ := heffect
    exact h.mkDir hnew hguard.1 hguard.2
  | unlink parent name full =>
    obtain ⟨d, row, hgone⟩ := heffect
    exact h.unlink hcfg hgone
  | rmDir parent name full =>
    obtain ⟨d, hgone⟩ := heffect
    exact h.rmDir hgone
  | link parent name target now =>
    obtain ⟨row, hnew⟩ := heffect
    rcases hguard with htaken | hdir
    · exact absurd hnew.name_free htaken
    · exact absurd (hdir row.asV2 (v2Row_of_lookup hnew.found)) hnew.file
  | rename oldParent oldName newParent newName full =>
    exact rename_exact h hcfg hguard.1 hguard.2.1 hguard.2.2 full
  | updateInode now m => exact updateInode_exact h hcfg hguard
  | setInlineExtent now id ext size => exact setInlineExtent_exact h hcfg hguard.1 hguard.2
  | appendExtent now id ext offset => exact appendExtent_exact h hcfg hguard.1 hguard.2
  | replaceExtents now id writes size =>
    exact replaceExtents_exact h hcfg hguard.1 hguard.2.1 hguard.2.2
  | _ => exact hguard.elim

theorem Exact.run (h : Exact R base l.rows) (hcfg : cfg.useBucketStats = true) {calls : List Call}
    (hmeets : Guarded.Meets (nextCall cfg) Countable calls l) :
    Exact R base (Leader.run cfg calls l).rows := by
  induction calls generalizing l with
  | nil => exact h
  | cons c calls ih => exact ih (h.call hcfg hmeets.1) (hmeets.2 _ rfl)

/-- A store that was just made has no files to count. -/
theorem JustMade.exact (h : JustMade R rows) (hstats : ∀ b, rows.bucketStats b = (0, 0)) :
    Exact R rows.bucketRoot rows := by
  have hdir : ∀ id row, rows.lookup (.inode id) = some (.inode row) →
      row.asV2.type = .directory := by
    intro id row hrow
    by_cases hid : R id
    · obtain ⟨row', hrow', htype⟩ := h.roots id hid
      obtain rfl := inode_unique hrow hrow'
      exact (asV2_type row).trans htype
    · rw [h.others id hid] at hrow
      cases hrow
  refine ⟨⟨h.sound, fun p => h.names p [], fun p n e he => ?_,
    fun id row hrow hfile => absurd (hdir id row hrow) hfile⟩, fun _ _ => rfl,
    fun id row hrow hfile => absurd (hdir id row hrow) hfile, fun b _ => ?_⟩
  · rw [h.names] at he
    cases he
  · rw [hstats]
    refine (Finset.sum_eq_zero fun k _ => ?_).symm
    by_contra hne
    obtain ⟨id, row, -, hrow, hfile, -⟩ := exists_row_of_fileUsage hne
    exact hfile (hdir id row hrow)

/--
**The counters of a bucket are the usage a scan finds.**  From a store that was just made,
where roots belong to no bucket or to their own, in every run of calls that keep a file to
one name and its size to its extents, a scan that is deep enough gives a bucket its counters.
-/
theorem bucketStats_eq_scan (cfg : Config) (hcfg : cfg.useBucketStats = true)
    (R : InodeID → Prop) (l : Leader) (hmade : JustMade R l.rows)
    (hroots : ∀ r, R r → l.rows.bucketRoot r = 0 ∨ l.rows.bucketRoot r = r)
    (hstats : ∀ b, l.rows.bucketStats b = (0, 0)) (calls : List Call)
    (hmeets : Guarded.Meets (nextCall cfg) Countable calls l) (b : InodeID) (hb : R b)
    (hbucket : l.rows.bucketRoot b = b) (hzero : b ≠ 0) :
    ∃ depth0, ∀ depth, depth0 ≤ depth → (Leader.run cfg calls l).rows.walkUsageTree depth b =
      some ((Leader.run cfg calls l).rows.bucketStats b) := by
  have h := (hmade.exact hstats).run hcfg hmeets
  have honly : ∀ r, R r → (Leader.run cfg calls l).rows.bucketRoot r = b → r = b := by
    intro r hr hrb
    rw [h.roots r hr] at hrb
    rcases hroots r hr with hnone | hself
    · exact absurd (hrb.symm.trans hnone) hzero
    · exact hself.symm.trans hrb
  refine ⟨((Leader.run cfg calls l).rows.below b).card + 1, fun depth hdepth => ?_⟩
  rw [h.sound.walkUsageTree_eq (Nat.lt_of_succ_le hdepth), h.counted b hzero,
    h.toPlaced.sum_below_eq (fun id row hrow hfile =>
      (h.accounted id row hrow hfile).extentBytesForInode) ((h.roots b hb).trans hbucket) honly]

/-- A service that counts. -/
def countingConfig : Config := ⟨true, fun _ => true⟩

/-- A leader with the root of one bucket. -/
def oneBucket : Leader :=
  .start ((∅ : Rows Value).insert (.inode 2) (.inode (.v1 ⟨2, .directory, 0, 2, 2, 0, []⟩))) 1

theorem oneBucket_justMade : JustMade (· = 2) oneBucket.rows where
  names := fun _ _ => lookup_insert_of_ne _ nofun
  roots := by
    rintro r rfl
    exact ⟨_, lookup_insert _, rfl⟩
  others := fun id hid => lookup_insert_of_ne _ (inode_ne hid)

/-- A file with an extent in its row, and then with another one. -/
def countedCalls : List Call :=
  [.createFile 2 ['f'] 0 ⟨3, false⟩ ⟨3, false⟩, .setInlineExtent 0 3 ⟨7, 10⟩ 10,
    .appendExtent 0 3 ⟨8, 5⟩ 10]

theorem bucketStats_eq_scan_appended : ∃ depth0, ∀ depth, depth0 ≤ depth →
      (Leader.run countingConfig countedCalls oneBucket).rows.walkUsageTree depth 2 =
        some ((Leader.run countingConfig countedCalls oneBucket).rows.bucketStats 2) := by
  have hnone : ∀ (rows : Rows Value) (ext : ExtentMeta),
      rows.lookup (.extentMeta ext.id) = none → KeepsLength rows ext := by
    intro rows ext hmissing old hold
    rw [hmissing] at hold
    cases hold
  have hpages : NoPages oneBucket.rows 3 := fun _ _ => lookup_insert_of_ne _ nofun
  have hmeets : Guarded.Meets (nextCall countingConfig) Countable countedCalls oneBucket := by
    refine ⟨⟨⟨2, rfl⟩, cons_ne_nil _ _, hpages, hpages⟩, fun l hl => ?_⟩
    cases hl
    refine ⟨⟨hnone _ _ (by decide), by decide⟩, fun l hl => ?_⟩
    cases hl
    exact ⟨⟨hnone _ _ (by decide), by decide⟩, fun _ _ => trivial⟩
  refine bucketStats_eq_scan countingConfig rfl _ oneBucket oneBucket_justMade ?_ ?_ countedCalls
    hmeets 2 rfl (by decide) (by decide)
  · rintro r rfl
    exact .inr (by decide)
  · intro b
    have hmissing : oneBucket.rows.lookup (.bucketStats b) = none :=
      lookup_insert_of_ne _ nofun
    unfold Rows.bucketStats
    rw [hmissing]

/-- The target of a symbolic link is counted, and the scan counts the size of the row. -/
theorem symlink_miscounted :
    (Leader.run countingConfig [.symlink 2 ['s'] ['a', 'b', 'c'] 0 ⟨3, false⟩ ⟨3, false⟩]
        oneBucket).rows.bucketStats 2 = (3, 1) ∧
      (Leader.run countingConfig [.symlink 2 ['s'] ['a', 'b', 'c'] 0 ⟨3, false⟩ ⟨3, false⟩]
        oneBucket).rows.walkUsageTree 1 2 = some (0, 1) := by
  constructor
  · decide
  · decide

end Nufs.Metadata
