/-
The list of extents of an inode.

What the store keeps for an inode is read as a list: nothing, the extent in the row, or
the pages under the roots.  Every operation on the extents does to that list what its name
says, as long as a file in page mode is not promoted again, is appended to only if it has
a page, and the counters do not run over.
-/
import Nufs.Lib.ExceptBind
import Nufs.Proofs.Metadata.Rewrites

namespace Nufs.Metadata

open List Finmap Function Nat Op

variable {cfg : Config}

/-! ### Writes that succeed -/

variable {l : Leader} {rows rows' : Rows Value} {id : InodeID} {row : InodeRow}
  {m : InodeMetaV2} {root p q r : Nat} {extents refs : List ExtentRef}
  {page : Nat → List ExtentRef} {v : Value}

theorem writePage_ok (cfg : Config) (id : InodeID) (root p : Nat) (extents : List ExtentRef)
    (l : Leader) :
    ∃ l', writePage cfg id root p extents l = (.ok (), l') ∧
      l'.rows = l.rows.insert (.extentPage id root p) (.page extents) :=
  logged_of_accepts rfl

/-- Rows under other keys stay, and nothing is added. -/
structure Drops (id : InodeID) (root : Nat) (rows rows' : Rows Value) : Prop where
  others : ∀ k, ¬ IsPage id root k → rows'.lookup k = rows.lookup k
  fewer : ∀ k v, rows'.lookup k = some v → rows.lookup k = some v

theorem Drops.refl (id : InodeID) (root : Nat) (rows : Rows Value) : Drops id root rows rows :=
  ⟨fun _ _ => rfl, fun _ _ h => h⟩

theorem Drops.erase (h : Drops id root rows rows') (p : Nat) :
    Drops id root rows (rows'.erase (.extentPage id root p)) := by
  constructor
  · intro k hk
    have hne : k ≠ .extentPage id root p := fun heq => hk ⟨p, heq⟩
    rw [lookup_erase_ne hne, h.others k hk]
  intro k v hv
  by_cases hk : k = .extentPage id root p
  · rw [hk, lookup_erase] at hv
    exact absurd hv (Option.some_ne_none v).symm
  · rw [lookup_erase_ne hk] at hv
    exact h.fewer k v hv

theorem Drops.pagesOnly (h : Drops id root rows rows') : PagesOnly id rows rows' := by
  intro k hk
  refine h.others k ?_
  rintro ⟨p, rfl⟩
  exact hk ⟨root, p, rfl⟩

theorem deleteRoot_ok (id : InodeID) (root count : Nat) (l : Leader) :
    ∃ l', deleteRoot id root count l = (.ok (), l') ∧ Drops id root l.rows l'.rows := by
  induction count with
  | zero => exact ⟨l, rfl, Drops.refl _ _ _⟩
  | succ count ih =>
    obtain ⟨l', hl', hdrops⟩ := ih
    refine ⟨{ l' with rows := l'.rows.erase (.extentPage id root count) }, ?_, hdrops.erase count⟩
    show (deleteRoot id root count >>= fun _ =>
      deleteLocal (.extentPage id root count)) l = _
    rw [bind_ok hl']
    rfl

theorem dropOldRoot_ok (old : InodeMetaV2) (id : InodeID) (l : Leader) :
    ∃ l', dropOldRoot old id l = (.ok (), l') ∧ Drops id old.extentRoot l.rows l'.rows := by
  unfold dropOldRoot
  split_ifs
  · exact deleteRoot_ok id old.extentRoot old.extentPageCount l
  · exact ⟨l, rfl, .refl _ _ _⟩

/-! ### Pages under roots -/

theorem getPage_of_lookup (h : rows.lookup (.extentPage id root p) = some (.page extents)) :
    rows.getPage id root p = .ok (some extents) := by
  unfold Rows.getPage
  rw [h]

theorem getPage_of_absent (h : rows.lookup (.extentPage id root p) = none) :
    rows.getPage id root p = .ok none := by
  unfold Rows.getPage
  rw [h]

/-- A page that stands under the root is the one that is read. -/
theorem resolvePage_top (h : rows.lookup (.extentPage id (root + 1) p) = some (.page extents)) :
    rows.resolvePage id p (root + 1) = .ok (some extents) := by
  rw [Rows.resolvePage, getPage_of_lookup h]
  rfl

/-- A page that does not stand under the root is the one of the roots before. -/
theorem resolvePage_below (h : rows.lookup (.extentPage id (root + 1) p) = none) :
    rows.resolvePage id p (root + 1) = rows.resolvePage id p root := by
  rw [Rows.resolvePage, getPage_of_absent h]
  rfl

theorem resolvePage_congr
    (h : ∀ r ≤ root, rows'.lookup (.extentPage id r p) = rows.lookup (.extentPage id r p)) :
    rows'.resolvePage id p root = rows.resolvePage id p root := by
  induction root with
  | zero => rfl
  | succ root ih =>
    have hget : rows'.getPage id (root + 1) p = rows.getPage id (root + 1) p := by
      unfold Rows.getPage
      rw [h _ (le_refl _)]
    rw [Rows.resolvePage, Rows.resolvePage, hget, ih fun r hr => h r (le_succ_of_le hr)]

/-- The references stand in pages, the last of them under the root itself. -/
structure InPages (rows : Rows Value) (id : InodeID) (root count : Nat)
    (page : Nat → List ExtentRef) : Prop where
  reads : ∀ p < count, rows.resolvePage id p root = .ok (some (page p))
  last : 0 < count →
    rows.lookup (.extentPage id root (count - 1)) = some (.page (page (count - 1)))

/-- The references of pages, in their order. -/
def refsOf (count : Nat) (page : Nat → List ExtentRef) : List ExtentRef :=
  (List.range count).flatMap page

theorem InPages.resolvePages (h : InPages rows m.id m.extentRoot m.extentPageCount page) :
    rows.resolvePages m = .ok (refsOf m.extentPageCount page) := by
  have hread : (List.range m.extentPageCount).mapM (fun p => rows.resolvePage m.id p m.extentRoot) =
        .ok ((List.range m.extentPageCount).map fun p => some (page p)) :=
    ExceptBind.mapM_eq_pure fun p hp => h.reads p (mem_range.mp hp)
  unfold Rows.resolvePages
  rw [hread]
  show Except.ok (((List.range m.extentPageCount).map fun p => some (page p)).flatMap _) = _
  rw [flatMap_map]
  rfl

/-! ### What the store keeps for an inode -/

/-- What the rows of an inode say, as a list. -/
def Lists (rows : Rows Value) (id : InodeID) (m : InodeMetaV2) (refs : List ExtentRef) : Prop :=
  match m.layout with
  | .empty => refs = []
  | .inlineExtent ext => refs = [⟨ext.id, 0⟩]
  | .extentPages =>
    ∃ page, InPages rows id m.extentRoot m.extentPageCount page ∧
      refs = refsOf m.extentPageCount page

/-- An inode with its extents; no page stands under a root that is yet to come. -/
structure Keeper (rows : Rows Value) (id : InodeID) (m : InodeMetaV2) (refs : List ExtentRef) :
    Prop where
  row : ∃ row : InodeRow, rows.lookup (.inode id) = some (.inode row) ∧ row.asV2 = m
  id_eq : m.id = id
  typed : ∀ r p v, rows.lookup (.extentPage id r p) = some v → ∃ extents, v = .page extents
  above : ∀ r p, m.extentRoot < r → rows.lookup (.extentPage id r p) = none
  lists : Lists rows id m refs

theorem inode_of_lookup (h : rows.HasInode id row) : rows.inode id = .ok (some row) := by
  unfold Rows.inode
  rw [h]

theorem asV1_id (row : InodeRow) : row.asV1.id = row.asV2.id := by
  cases row with
  | v1 m | v2 m => rfl

/-- The extents a row says an inode has. -/
def extentsOf (rows : Rows Value) (m : InodeMetaV2) : Except ServiceErr (List ExtentRef) :=
  match m.layout with
  | .empty => .ok []
  | .inlineExtent ext => .ok [⟨ext.id, 0⟩]
  | .extentPages => rows.resolvePages m

theorem resolveExtents_of_row (hrow : rows.HasInode id row) :
    rows.resolveExtents id = extentsOf rows row.asV2 := by
  unfold Rows.resolveExtents
  rw [inode_of_lookup hrow]
  rfl

theorem Keeper.resolveExtents (h : Keeper rows id m refs) : rows.resolveExtents id = .ok refs := by
  obtain ⟨row, hrow, hm⟩ := h.row
  have hlists := h.lists
  unfold Lists at hlists
  rw [resolveExtents_of_row hrow, hm]
  unfold extentsOf
  cases hl : m.layout with
  | empty | inlineExtent ext =>
    rw [hl] at hlists
    rw [hlists]
  | extentPages =>
    rw [hl] at hlists
    obtain ⟨page, hpages, hrefs⟩ := hlists
    rw [hrefs]
    refine InPages.resolvePages ?_
    rw [h.id_eq]
    exact hpages

theorem getV2_of_row (hrow : l.rows.HasInode id row) : getV2 id l = (.ok row.asV2, l) := by
  have hget : getV2 id l = (Op.lift (l.rows.inode id) >>= Op.asV2) l := rfl
  rw [hget, inode_of_lookup hrow]
  rfl

/-! ### Switching the row -/

/-- The row is written, and the pages are as they were. -/
structure Publishes (id : InodeID) (m : InodeMetaV2) (rows rows' : Rows Value) : Prop where
  row : rows'.lookup (.inode id) = some (.inode (.v2 m))
  pages : ∀ r p, rows'.lookup (.extentPage id r p) = rows.lookup (.extentPage id r p)

/-- The row is written, and pages of the old root may be gone. -/
structure Switches (id : InodeID) (oldRoot : Nat) (m : InodeMetaV2) (rows rows' : Rows Value) :
    Prop where
  row : rows'.lookup (.inode id) = some (.inode (.v2 m))
  pages : ∀ r p, r ≠ oldRoot →
    rows'.lookup (.extentPage id r p) = rows.lookup (.extentPage id r p)
  fewer : ∀ r p v, rows'.lookup (.extentPage id r p) = some v →
    rows.lookup (.extentPage id r p) = some v

theorem not_isStats_page : ¬ IsStats (.extentPage id r p) := by
  rintro ⟨root, hroot⟩
  cases hroot

/-- Once the row is written, the pages of the old root are dropped. -/
theorem Publishes.switch {put : Op Unit}
    (h : ∃ l', put l = (.ok (), l') ∧ Publishes id m l.rows l'.rows ∧
      Rewritten cfg id row (.v2 m) l.rows l'.rows) (old : InodeMetaV2) :
    ∃ l', (put >>= fun _ => .dropOldRoot old id) l = (.ok (), l') ∧
      Switches id old.extentRoot m l.rows l'.rows ∧
      Rewritten cfg id row (.v2 m) l.rows l'.rows := by
  obtain ⟨l1, hput, hpub, hre⟩ := h
  obtain ⟨l2, hdrop, hdrops⟩ := dropOldRoot_ok old id l1
  refine ⟨l2, (bind_ok hput).trans hdrop, ⟨?_, ?_, ?_⟩, hre.after hdrops.pagesOnly⟩
  · rw [hdrops.others _ (not_isPage_inode _ _ _), hpub.row]
  · intro r p hr
    have hother : ¬ IsPage id old.extentRoot (.extentPage id r p) := by
      rintro ⟨p', heq⟩
      injection heq with _ hr' _
      exact hr hr'
    rw [hdrops.others _ hother, hpub.pages]
  · intro r p v hv
    rw [← hpub.pages]
    exact hdrops.fewer _ v hv

/-- The row with its extent in it. -/
def InodeMetaV2.inlining (m : InodeMetaV2) (ext : ExtentMeta) (size now : Int) : InodeMetaV2 :=
  { m with layout := .inlineExtent ext, size, ctime := now }

/-- The row in page mode, with so many pages up to the next root. -/
def InodeMetaV2.paged (m : InodeMetaV2) (count : Nat) (size now : Int) : InodeMetaV2 :=
  { m with
    layout := .extentPages, extentRoot := nextRoot m.extentRoot, extentPageCount := count
    size, ctime := now }

section Row

variable (hrow : l.rows.HasInode id row) (hid : row.asV2.id = id)
include hrow hid

theorem putStats_publishes (hm : m.id = id) (htype : m.type = row.asV2.type)
    (hnlink : m.nlink = row.asV2.nlink) (hroot : m.bucketRoot = row.asV2.bucketRoot) :
    ∃ l', putWithBucketStats cfg m row.asV2.size l = (.ok (), l') ∧
      Publishes id m l.rows l'.rows ∧ Rewritten cfg id row (.v2 m) l.rows l'.rows := by
  obtain ⟨l', hl', hrows⟩ :=
    putWithBucketStats_ok hrow ((asV1_id row).trans hid) hm row.asV2.size
  refine ⟨l', hl', ?_⟩
  rw [hrows]
  refine ⟨⟨lookup_rowBatch, fun r p => lookup_rowBatch_of_ne nofun not_isStats_page⟩, ?_⟩
  rw [hroot]
  exact rewritten_rowBatch hrow htype hnlink hroot

theorem setInlineRow_ok (cfg : Config) (now : Int) (ext : ExtentMeta) (size : Int) :
    ∃ l', Op.setInlineRow cfg now id ext size l = (.ok (), l') ∧
      Switches id row.asV2.extentRoot (row.asV2.inlining ext size now) l.rows l'.rows ∧
      Rewritten cfg id row (.v2 (row.asV2.inlining ext size now)) l.rows l'.rows := by
  obtain ⟨l', hl', hboth⟩ := Publishes.switch
    (putStats_publishes (m := row.asV2.inlining ext size now) hrow hid hid rfl rfl rfl) row.asV2
  refine ⟨l', ?_, hboth⟩
  unfold Op.setInlineRow
  rw [bind_ok (getV2_of_row hrow)]
  exact hl'

end Row

/-- What a keeper of a row with a newer root needs. -/
theorem Keeper.of_switches {m' : InodeMetaV2} {oldRoot : Nat}
    (h : Switches id oldRoot m' rows rows') (hid : m'.id = id)
    (htyped : ∀ r p v, rows.lookup (.extentPage id r p) = some v → ∃ extents, v = .page extents)
    (habove : ∀ r p, m'.extentRoot < r → rows.lookup (.extentPage id r p) = none)
    (hlists : Lists rows' id m' refs) : Keeper rows' id m' refs where
  row := ⟨.v2 m', h.row, rfl⟩
  id_eq := hid
  typed := fun r p v hv => htyped r p v (h.fewer r p v hv)
  above := by
    intro r p hr
    cases hv : rows'.lookup (.extentPage id r p) with
    | none => rfl
    | some v =>
      have hbefore := h.fewer r p v hv
      rw [habove r p hr] at hbefore
      cases hbefore
  lists := hlists

/-! ### The operations -/

theorem Keeper.setInlineRow (h : Keeper l.rows id row.asV2 refs)
    (hrow : l.rows.HasInode id row) (cfg : Config) (now : Int) (ext : ExtentMeta) (size : Int) :
    ∃ l' m', Op.setInlineRow cfg now id ext size l = (.ok (), l') ∧
      Keeper l'.rows id m' [⟨ext.id, 0⟩] ∧ Rewritten cfg id row (.v2 m') l.rows l'.rows ∧
      m'.layout = .inlineExtent ext ∧ m'.size = size := by
  obtain ⟨l', hl', hsw, hre⟩ := setInlineRow_ok hrow h.id_eq cfg now ext size
  exact ⟨l', _, hl', .of_switches hsw h.id_eq h.typed h.above rfl, hre, rfl, rfl⟩

theorem nextRoot_of_lt (h : root + 1 < 2 ^ 64) : nextRoot root = root + 1 := mod_eq_of_lt h

/-- A page under the next root, beside what the inode has. -/
theorem typed_insert
    (h : ∀ r p v, rows.lookup (.extentPage id r p) = some v → ∃ extents, v = .page extents)
    (root q : Nat) (extents : List ExtentRef) :
    ∀ r p v, (rows.insert (.extentPage id root q) (.page extents)).lookup (.extentPage id r p) =
      some v → ∃ extents, v = .page extents := by
  intro r p v hv
  by_cases hk : (Key.extentPage id r p) = .extentPage id root q
  · rw [hk, lookup_insert] at hv
    exact ⟨extents, (Option.some.inj hv).symm⟩
  · rw [lookup_insert_of_ne _ hk] at hv
    exact h r p v hv

theorem lookup_insert_page_of_ne (hne : r ≠ root ∨ p ≠ q) :
    (rows.insert (.extentPage id root q) v).lookup (.extentPage id r p) =
      rows.lookup (.extentPage id r p) := by
  refine lookup_insert_of_ne _ fun heq => ?_
  injection heq with _ hr hp
  exact hne.elim (· hr) (· hp)

/-- A promoted inode has one page, with the extent that was in its row. -/
theorem Keeper.promoteToPages (h : Keeper l.rows id row.asV2 refs) (hrow : l.rows.HasInode id row)
    (hroot : row.asV2.extentRoot + 1 < 2 ^ 64)
    (hrefs : row.asV2.layout = .extentPages → refs = []) (now : Int) :
    ∃ l' m', Op.promoteToPages cfg now id l = (.ok (), l') ∧ Keeper l'.rows id m' refs ∧
      Rewritten cfg id row (.v2 m') l.rows l'.rows ∧ m'.size = row.asV2.size ∧
      m'.layout = .extentPages ∧ m'.extentRoot = row.asV2.extentRoot + 1 ∧
      m'.extentPageCount = 1 := by
  have hextents : row.asV2.layout.inlined = refs := by
    have hlists := h.lists
    unfold Lists at hlists
    cases hl : row.asV2.layout with
    | empty | inlineExtent ext =>
      rw [hl] at hlists
      exact hlists.symm
    | extentPages => exact (hrefs hl).symm
  obtain ⟨l1, hpage, hrows1⟩ :=
    writePage_ok cfg id (nextRoot row.asV2.extentRoot) 0 row.asV2.layout.inlined l
  have honly : PagesOnly id l.rows l1.rows := hrows1 ▸ .insert _ _ _
  have hrow1 := (honly _ (not_isPageOf_inode id)).trans hrow
  let m' := row.asV2.paged 1 row.asV2.size now
  have hput : ∃ l2, Op.put cfg (.inode row.asV2.id) (.inode (.v2 m')) l1 = (.ok (), l2) ∧
      Publishes id m' l1.rows l2.rows ∧ Rewritten cfg id row (.v2 m') l1.rows l2.rows := by
    rw [h.id_eq]
    obtain ⟨l2, hl2, hrows2⟩ :=
      putRow_ok hrow1 ((asV1_id row).trans h.id_eq) (.v2 m') h.id_eq rfl
    refine ⟨l2, hl2, ?_⟩
    rw [hrows2]
    exact ⟨⟨lookup_insert _, fun r p => lookup_insert_of_ne _ nofun⟩,
      rewritten_insert hrow1 rfl rfl rfl rfl⟩
  obtain ⟨l', hl', hsw, hre⟩ := Publishes.switch hput row.asV2
  have hnext := nextRoot_of_lt hroot
  refine ⟨l', m', ?_, .of_switches hsw h.id_eq ?_ ?_ ?_, hre.before honly, rfl, rfl, hnext, rfl⟩
  · unfold Op.promoteToPages
    rw [bind_ok (getV2_of_row hrow)]
    exact (bind_ok hpage).trans hl'
  · rw [hrows1]
    exact typed_insert h.typed _ _ _
  · intro r p hr
    have hr' : nextRoot row.asV2.extentRoot < r := hr
    rw [hnext] at hr'
    rw [hrows1, lookup_insert_page_of_ne (.inl (by omega))]
    exact h.above r p (by omega)
  have hfound : l'.rows.lookup (.extentPage id (nextRoot row.asV2.extentRoot) 0) =
      some (.page row.asV2.layout.inlined) := by
    rw [hsw.pages _ _ (nextRoot_ne _), hrows1, lookup_insert]
  refine ⟨fun _ => row.asV2.layout.inlined, ⟨fun p hp => ?_, fun _ => hfound⟩, ?_⟩
  · obtain rfl : p = 0 := lt_one_iff.mp hp
    show l'.rows.resolvePage id 0 (nextRoot row.asV2.extentRoot) = _
    rw [hnext] at hfound ⊢
    exact resolvePage_top hfound
  · show refs = [0].flatMap fun _ => row.asV2.layout.inlined
    rw [hextents]
    simp

theorem refsOf_succ (q : Nat) (page : Nat → List ExtentRef) :
    refsOf (q + 1) page = refsOf q page ++ page q := by
  unfold refsOf
  rw [range_succ, flatMap_append]
  simp

theorem refsOf_update (q : Nat) (page : Nat → List ExtentRef) (extents : List ExtentRef) :
    refsOf (q + 1) (Function.update page q extents) = refsOf q page ++ extents := by
  have hbefore : refsOf q (Function.update page q extents) = refsOf q page := by
    refine flatMap_congr fun p hp => ?_
    exact update_of_ne (Nat.ne_of_lt (mem_range.mp hp)) _ _
  rw [refsOf_succ, hbefore, update_self]

/-- The last page is written under the next root; the others are read from the roots before. -/
theorem InPages.write {count : Nat} (h : InPages rows id root count page)
    (habove : ∀ p, rows.lookup (.extentPage id (root + 1) p) = none)
    (hrows : ∀ r p, rows'.lookup (.extentPage id r p) =
      (rows.insert (.extentPage id (root + 1) q) (.page extents)).lookup (.extentPage id r p))
    (hq : ∀ p < q, p < count) :
    InPages rows' id (root + 1) (q + 1) (Function.update page q extents) := by
  have hlast : rows'.lookup (.extentPage id (root + 1) q) = some (.page extents) := by
    rw [hrows, lookup_insert]
  constructor
  · intro p hp
    by_cases hpq : p = q
    · subst hpq
      rw [update_self]
      exact resolvePage_top hlast
    have hlt : p < q := lt_of_le_of_ne (le_of_lt_succ hp) hpq
    have hnone : rows'.lookup (.extentPage id (root + 1) p) = none := by
      rw [hrows, lookup_insert_page_of_ne (.inr hpq), habove]
    have hbelow : rows'.resolvePage id p root = rows.resolvePage id p root := by
      refine resolvePage_congr fun r hr => ?_
      rw [hrows, lookup_insert_page_of_ne (.inr hpq)]
    rw [resolvePage_below hnone, hbelow, update_of_ne hpq]
    exact h.reads p (hq p hlt)
  · intro _
    rw [Nat.add_sub_cancel, update_self]
    exact hlast

/-- The last page with one reference more, or a page that has only it. -/
theorem appendToPage_ok (h : InPages l.rows id root (q + 1) page) (ref : ExtentRef)
    (hroot : root + 1 < 2 ^ 64) (hcount : q + 2 < 2 ^ 32) :
    ∃ l' created q' extents, Op.appendToPage cfg id root q ref l = (.ok created, l') ∧
      l'.rows = l.rows.insert (.extentPage id (root + 1) q') (.page extents) ∧
      (if created then toPageNo (q + 2) else q + 1) = q' + 1 ∧ q' ≤ q + 1 ∧
      refsOf q' page ++ extents = refsOf (q + 1) page ++ [ref] := by
  have hnext := nextRoot_of_lt hroot
  have hread : l.rows.resolvePage id q root = .ok (some (page q)) := h.reads q (lt_succ_self q)
  have hget : l.rows.getPage id root q = .ok (some (page q)) :=
    getPage_of_lookup (h.last (succ_pos q))
  by_cases hfull : maxExtentsPerPage ≤ (page q).length
  · obtain ⟨l', hl', hrows⟩ := writePage_ok cfg id (root + 1) (q + 1) [ref] l
    refine ⟨l', true, q + 1, [ref], ?_, hrows, ?_, le_refl _, rfl⟩
    · unfold Op.appendToPage
      show (Op.lift (l.rows.resolvePage id q root) >>= fun _ => _) l = _
      rw [hread]
      show (if maxExtentsPerPage ≤ (page q).length then _ else _ : Op Bool) l = _
      rw [if_pos hfull, hnext]
      have hno : toPageNo (q + 1) = q + 1 := mod_eq_of_lt (by omega)
      rw [hno]
      show (writePage cfg id (root + 1) (q + 1) [ref] >>= fun _ => pure true) l = _
      rw [bind_ok hl']
      rfl
    · exact mod_eq_of_lt hcount
  · obtain ⟨l', hl', hrows⟩ := writePage_ok cfg id (root + 1) q (page q ++ [ref]) l
    refine ⟨l', false, q, page q ++ [ref], ?_, hrows, rfl, le_succ q, ?_⟩
    · unfold Op.appendToPage
      show (Op.lift (l.rows.resolvePage id q root) >>= fun _ => _) l = _
      rw [hread]
      show (if maxExtentsPerPage ≤ (page q).length then _ else _ : Op Bool) l = _
      rw [if_neg hfull, hget, hnext]
      show (writePage cfg id (root + 1) q (page q ++ [ref]) >>= fun _ => pure false) l = _
      rw [bind_ok hl']
      rfl
    · rw [refsOf_succ, append_assoc]

/-- What follows once an inode is in page mode. -/
def appendRest (cfg : Config) (now : Int) (id : InodeID) (ref : ExtentRef) (extentSize : Int) :
    Op Unit := do
  let old ← getV2 id
  let created ← Op.appendToPage cfg id old.extentRoot (old.extentPageCount - 1) ref
  putWithBucketStats cfg { old with
    extentPageCount := if created then toPageNo (old.extentPageCount + 1) else old.extentPageCount,
    extentRoot := nextRoot old.extentRoot, size := old.size + extentSize, ctime := now } old.size

theorem Keeper.appendRest (h : Keeper l.rows id row.asV2 refs) (hrow : l.rows.HasInode id row)
    (hlayout : row.asV2.layout = .extentPages) (hpos : 0 < row.asV2.extentPageCount)
    (hroot : row.asV2.extentRoot + 1 < 2 ^ 64) (hcount : row.asV2.extentPageCount + 1 < 2 ^ 32)
    (now : Int) (ref : ExtentRef) (extentSize : Int) :
    ∃ l' m', Metadata.appendRest cfg now id ref extentSize l = (.ok (), l') ∧
      Keeper l'.rows id m' (refs ++ [ref]) ∧ Rewritten cfg id row (.v2 m') l.rows l'.rows ∧
      m'.layout = .extentPages ∧ m'.size = row.asV2.size + extentSize := by
  have hlists := h.lists
  unfold Lists at hlists
  rw [hlayout] at hlists
  obtain ⟨page, hpages, hrefs⟩ := hlists
  obtain ⟨q, hq⟩ : ∃ q, row.asV2.extentPageCount = q + 1 :=
    exists_eq_succ_of_ne_zero (by omega)
  rw [hq] at hpages hrefs hcount
  obtain ⟨l1, created, q', extents, happend, hrows1, hnew, hle, hcontent⟩ :=
    appendToPage_ok hpages ref hroot hcount
  have hnext := nextRoot_of_lt hroot
  let m' : InodeMetaV2 := { row.asV2 with
      extentPageCount :=
        if created then toPageNo (row.asV2.extentPageCount + 1) else row.asV2.extentPageCount,
      extentRoot := nextRoot row.asV2.extentRoot, size := row.asV2.size + extentSize,
      ctime := now }
  have hcount' : m'.extentPageCount = q' + 1 := by
    show (if created then toPageNo (row.asV2.extentPageCount + 1) else _) = q' + 1
    rw [hq]
    exact hnew
  have honly : PagesOnly id l.rows l1.rows := hrows1 ▸ .insert _ _ _
  have hrow1 := (honly _ (not_isPageOf_inode id)).trans hrow
  obtain ⟨l', hl', hpub, hre⟩ :=
    putStats_publishes (m := m') hrow1 h.id_eq h.id_eq rfl rfl rfl
  refine ⟨l', m', ?_, ⟨⟨.v2 m', hpub.row, rfl⟩, h.id_eq, ?_, ?_, ?_⟩, hre.before honly, hlayout,
    rfl⟩
  · unfold Metadata.appendRest
    rw [bind_ok (getV2_of_row hrow), hq]
    refine (bind_ok happend).trans ?_
    rw [← hq]
    exact hl'
  · intro r p v hv
    rw [hpub.pages, hrows1] at hv
    exact typed_insert h.typed _ _ _ r p v hv
  · intro r p hr
    have hr' : row.asV2.extentRoot + 1 < r := hnext ▸ hr
    rw [hpub.pages, hrows1, lookup_insert_page_of_ne (.inl (by omega))]
    exact h.above r p (by omega)
  have hwritten : InPages l'.rows id (row.asV2.extentRoot + 1) (q' + 1)
      (Function.update page q' extents) := by
    refine hpages.write (fun p => h.above _ p (lt_succ_self _)) (fun r p => ?_)
      fun p hp => by omega
    rw [hpub.pages, hrows1]
  unfold Lists
  rw [show m'.layout = .extentPages from hlayout]
  refine ⟨Function.update page q' extents, ?_, ?_⟩
  · rw [hcount', show m'.extentRoot = row.asV2.extentRoot + 1 from hnext]
    exact hwritten
  · rw [hcount', refsOf_update, hcontent, hrefs]

theorem Keeper.appendRow (h : Keeper l.rows id row.asV2 refs) (hrow : l.rows.HasInode id row)
    (hroot : row.asV2.extentRoot + 2 < 2 ^ 64) (hcount : row.asV2.layout = .extentPages →
      0 < row.asV2.extentPageCount ∧ row.asV2.extentPageCount + 1 < 2 ^ 32)
    (cfg : Config) (now : Int) (ref : ExtentRef) (extentSize : Int) :
    ∃ l' m', Op.appendRow cfg now id ref extentSize l = (.ok (), l') ∧
      Keeper l'.rows id m' (refs ++ [ref]) ∧ Rewritten cfg id row (.v2 m') l.rows l'.rows ∧
      m'.layout = .extentPages ∧ m'.size = row.asV2.size + extentSize := by
  have hsplit : ∀ {l1}, ensurePages cfg now id l = (.ok (), l1) →
      Op.appendRow cfg now id ref extentSize l = Metadata.appendRest cfg now id ref extentSize l1 :=
    bind_ok
  have hensure : ensurePages cfg now id l =
      (if row.asV2.layout ≠ .extentPages then Op.promoteToPages cfg now id else pure ()) l := by
    unfold ensurePages
    rw [bind_ok (getV2_of_row hrow)]
  by_cases hlayout : row.asV2.layout = .extentPages
  · obtain ⟨hpos, hlt⟩ := hcount hlayout
    rw [if_neg (not_not_intro hlayout)] at hensure
    rw [hsplit (hensure.trans rfl)]
    exact h.appendRest hrow hlayout hpos (by omega) hlt now ref extentSize
  · rw [if_pos hlayout] at hensure
    obtain ⟨l1, m1, hpromote, hkeeper1, hre1, hsize1, hlayout1, hroot1, hcount1⟩ :=
      h.promoteToPages hrow (by omega) (fun hl => absurd hl hlayout) now
    have hlt : m1.extentPageCount + 1 < 2 ^ 32 := by omega
    have hkeeper2 : Keeper l1.rows id (InodeRow.v2 m1).asV2 refs := hkeeper1
    rw [hsplit (hensure.trans hpromote)]
    obtain ⟨l', m', hl', hkeeper, hre, hlayout', hsize'⟩ := hkeeper2.appendRest hre1.written
      hlayout1 (hcount1 ▸ one_pos) (hroot1 ▸ hroot) hlt now ref extentSize
    refine ⟨l', m', hl', hkeeper, hre1.trans hre, hlayout', ?_⟩
    rw [hsize', ← hsize1]
    rfl

/-! ### Pages of a fresh root -/

theorem writePages_ok (cfg : Config) (id : InodeID) (root : Nat) (writes : List ExtentWrite)
    (count : Nat) (l : Leader) :
    ∃ l', writePages cfg id root writes count l = (.ok (), l') ∧
      (∀ p < count, l'.rows.lookup (.extentPage id root p) = some (.page (pageOf writes p))) ∧
      ∀ k, (∀ p < count, k ≠ .extentPage id root p) → l'.rows.lookup k = l.rows.lookup k := by
  induction count with
  | zero => exact ⟨l, rfl, fun p hp => absurd hp (not_lt_zero p), fun _ _ => rfl⟩
  | succ count ih =>
    obtain ⟨l1, hl1, hpages, hothers⟩ := ih
    obtain ⟨l', hl', hrows⟩ := writePage_ok cfg id root count (pageOf writes count) l1
    refine ⟨l', ?_, fun p hp => ?_, fun k hk => ?_⟩
    · show (writePages cfg id root writes count >>= fun _ =>
        writePage cfg id root count (pageOf writes count)) l = _
      rw [bind_ok hl1, hl']
    · by_cases hlast : p = count
      · rw [hrows, hlast, lookup_insert]
      · rw [hrows, lookup_insert_page_of_ne (.inr hlast)]
        exact hpages p (by omega)
    · rw [hrows, lookup_insert_of_ne _ (hk count (lt_succ_self count))]
      exact hothers k fun p hp => hk p (lt_succ_of_lt hp)

/-- Cutting writes into pages loses none. -/
theorem refsOf_pageOf (writes : List ExtentWrite) (count : Nat) : refsOf count (pageOf writes) =
      (writes.take (count * maxExtentsPerPage)).map fun w => ⟨w.extent.id, w.offset⟩ := by
  induction count with
  | zero =>
    rw [zero_mul]
    rfl
  | succ count ih =>
    rw [refsOf_succ, ih, succ_mul, take_add, map_append]
    rfl

theorem replaceRows_ok (hrow : l.rows.HasInode id row)
    (hid : row.asV2.id = id) (cfg : Config) (now : Int) (writes : List ExtentWrite)
    (size : Int) :
    ∃ l1 l' : Leader, Op.replaceRows cfg now id writes size l = (.ok (), l') ∧
      (∀ p < pageCountOf writes,
        l1.rows.lookup (.extentPage id (nextRoot row.asV2.extentRoot) p) =
          some (.page (pageOf writes p))) ∧
      (∀ k, (∀ p < pageCountOf writes, k ≠ .extentPage id (nextRoot row.asV2.extentRoot) p) →
        l1.rows.lookup k = l.rows.lookup k) ∧
      Switches id row.asV2.extentRoot (row.asV2.paged (pageCountOf writes) size now)
        l1.rows l'.rows ∧
      Rewritten cfg id row (.v2 (row.asV2.paged (pageCountOf writes) size now))
        l.rows l'.rows := by
  obtain ⟨l1, hpages, hfound, hothers⟩ :=
    writePages_ok cfg id (nextRoot row.asV2.extentRoot) writes (pageCountOf writes) l
  have honly : PagesOnly id l.rows l1.rows := fun k hk => hothers k fun p _ heq => hk ⟨_, p, heq⟩
  have hrow1 := (honly _ (not_isPageOf_inode id)).trans hrow
  obtain ⟨l', hl', hsw, hre⟩ := Publishes.switch
    (putStats_publishes (m := row.asV2.paged (pageCountOf writes) size now)
      hrow1 hid hid rfl rfl rfl) row.asV2
  refine ⟨l1, l', ?_, hfound, hothers, hsw, hre.before honly⟩
  unfold Op.replaceRows
  rw [bind_ok (getV2_of_row hrow)]
  exact (bind_ok hpages).trans hl'

theorem Keeper.replaceRows (h : Keeper l.rows id row.asV2 refs) (hrow : l.rows.HasInode id row)
    (hroot : row.asV2.extentRoot + 1 < 2 ^ 64) (cfg : Config) (now : Int)
    (writes : List ExtentWrite)
    (hcount : (writes.length + maxExtentsPerPage - 1) / maxExtentsPerPage < 2 ^ 32) (size : Int) :
    ∃ l' m', Op.replaceRows cfg now id writes size l = (.ok (), l') ∧
      Keeper l'.rows id m' (writes.map fun w => ⟨w.extent.id, w.offset⟩) ∧
      Rewritten cfg id row (.v2 m') l.rows l'.rows ∧ m'.layout = .extentPages ∧ m'.size = size := by
  have hnext := nextRoot_of_lt hroot
  have hpageCount : pageCountOf writes =
      (writes.length + maxExtentsPerPage - 1) / maxExtentsPerPage := mod_eq_of_lt hcount
  obtain ⟨l1, l', hl', hfound, hothers, hsw, hre⟩ :=
    replaceRows_ok hrow h.id_eq cfg now writes size
  have hstands : ∀ p < pageCountOf writes,
      l'.rows.lookup (.extentPage id (nextRoot row.asV2.extentRoot) p) =
        some (.page (pageOf writes p)) := by
    intro p hp
    rw [hsw.pages _ _ (nextRoot_ne _), hfound p hp]
  refine ⟨l', _, hl', .of_switches hsw h.id_eq ?_ ?_ ?_, hre, rfl, rfl⟩
  · intro r p v hv
    by_cases hnew : r = nextRoot row.asV2.extentRoot ∧ p < pageCountOf writes
    · rw [hnew.1, hfound p hnew.2] at hv
      exact ⟨_, (Option.some.inj hv).symm⟩
    · rw [hothers] at hv
      · exact h.typed r p v hv
      · intro p' hp' heq
        injection heq with _ hr hp
        exact hnew ⟨hr, hp ▸ hp'⟩
  · intro r p hr
    have hr' : row.asV2.extentRoot + 1 < r := hnext ▸ hr
    rw [hothers]
    · exact h.above r p (by omega)
    · intro p' _ heq
      injection heq with _ hr'' _
      omega
  · refine ⟨pageOf writes, ⟨fun p hp => ?_, fun hpos => hstands _ ?_⟩, ?_⟩
    · have htop := hstands p hp
      show l'.rows.resolvePage id p (nextRoot row.asV2.extentRoot) = _
      rw [hnext] at htop ⊢
      exact resolvePage_top htop
    · exact sub_lt hpos one_pos
    · show _ = refsOf (pageCountOf writes) (pageOf writes)
      rw [refsOf_pageOf, take_of_length_le]
      rw [hpageCount]
      unfold maxExtentsPerPage
      omega

/-! ### Any number of operations -/

/-- The row of an inode, read as one of the new model. -/
def v2Row (rows : Rows Value) (id : InodeID) : Option InodeMetaV2 :=
  match rows.lookup (.inode id) with
  | some (.inode row) => some row.asV2
  | _ => none

/--
A file in page mode is promoted only if it has no extents and appended to only if it has a
page; roots and page numbers do not run over.
-/
def InOrder (id : InodeID) (l : Leader) : ExtentOp → Prop
  | .setInlineExtent _ _ _ => True
  | .promoteToPages _ =>
    ∀ m ∈ v2Row l.rows id, m.extentRoot + 1 < 2 ^ 64 ∧
      (m.layout = .extentPages → l.rows.resolveExtents id = .ok [])
  | .appendExtent _ _ _ =>
    ∀ m ∈ v2Row l.rows id, m.extentRoot + 2 < 2 ^ 64 ∧
      (m.layout = .extentPages → 0 < m.extentPageCount ∧ m.extentPageCount + 1 < 2 ^ 32)
  | .replaceExtents _ writes _ =>
    ∀ m ∈ v2Row l.rows id, m.extentRoot + 1 < 2 ^ 64 ∧
      (writes.length + maxExtentsPerPage - 1) / maxExtentsPerPage < 2 ^ 32

/-- A file that was just created: no extents, no roots, and no pages under its number. -/
structure JustCreated (rows : Rows Value) (id : InodeID) : Prop where
  row : ∃ row : InodeRow, rows.lookup (.inode id) = some (.inode row) ∧ row.asV2.id = id ∧
    row.asV2.layout = .empty
  pages : ∀ r p, rows.lookup (.extentPage id r p) = none

theorem JustCreated.keeper (h : JustCreated rows id) : ∃ m, Keeper rows id m [] := by
  obtain ⟨row, hrow, hid, hlayout⟩ := h.row
  refine ⟨row.asV2, ⟨row, hrow, rfl⟩, hid, fun r p v hv => ?_, fun r p _ => h.pages r p, ?_⟩
  · rw [h.pages] at hv
    cases hv
  · unfold Lists
    rw [hlayout]

theorem Keeper.v2Row (h : Keeper rows id m refs) : m ∈ v2Row rows id := by
  obtain ⟨row, hrow, hm⟩ := h.row
  unfold Metadata.v2Row
  rw [hrow]
  exact congrArg some hm

/-- One operation does to the list what it is for. -/
theorem Keeper.step (h : Keeper l.rows id m refs) {o : ExtentOp} (hguard : InOrder id l o) :
    ∃ l', o.step cfg id l = some l' ∧ ∃ m', Keeper l'.rows id m' (o.next refs) := by
  have hstep : ∀ {l' : Leader}, o.op cfg id l = (.ok (), l') → o.step cfg id l = some l' := by
    intro l' hop
    unfold ExtentOp.step
    rw [hop]
  obtain ⟨row, hrow, rfl⟩ := h.row
  cases o with
  | setInlineExtent now ext size =>
    obtain ⟨l', m', hl', hkeeper, -⟩ := h.setInlineRow hrow cfg now ext size
    exact ⟨l', hstep hl', m', hkeeper⟩
  | promoteToPages now =>
    obtain ⟨hroot, hempty⟩ := hguard _ h.v2Row
    have hrefs : row.asV2.layout = .extentPages → refs = [] := by
      intro hlayout
      have hresolve := hempty hlayout
      rw [h.resolveExtents] at hresolve
      exact Except.ok.inj hresolve
    obtain ⟨l', m', hl', hkeeper, -⟩ := h.promoteToPages hrow hroot hrefs now
    exact ⟨l', hstep hl', m', hkeeper⟩
  | appendExtent now ref extentSize =>
    obtain ⟨hroot, hcount⟩ := hguard _ h.v2Row
    obtain ⟨l', m', hl', hkeeper, -⟩ := h.appendRow hrow hroot hcount cfg now ref extentSize
    exact ⟨l', hstep hl', m', hkeeper⟩
  | replaceExtents now writes size =>
    obtain ⟨hroot, hcount⟩ := hguard _ h.v2Row
    obtain ⟨l', m', hl', hkeeper, -⟩ := h.replaceRows hrow hroot cfg now writes hcount size
    exact ⟨l', hstep hl', m', hkeeper⟩

/--
**Extents are a list.**  From a file that was just created, operations in order all succeed,
and the file resolves to the list they make of the empty one.
-/
theorem resolveExtents_run (cfg : Config) (l : Leader) (id : InodeID)
    (hcreated : JustCreated l.rows id) (ops : List ExtentOp)
    (horder : Guarded.Meets (ExtentOp.step cfg id) (InOrder id) ops l) :
    ∃ l', Guarded.run (ExtentOp.step cfg id) ops l = some l' ∧
      l'.rows.resolveExtents id = .ok (ops.foldl ExtentOp.next []) := by
  have hstep : ∀ l o refs, (∃ m, Keeper l.rows id m refs) → InOrder id l o →
      ∃ l', o.step cfg id l = some l' ∧ ∃ m', Keeper l'.rows id m' (o.next refs) := by
    intro l o refs hkeeper hguard
    obtain ⟨m, hkeeper⟩ := hkeeper
    exact hkeeper.step hguard
  obtain ⟨l', hrun, m', hkeeper⟩ := Guarded.run_refines
    (R := fun l refs => ∃ m, Keeper l.rows id m refs) hstep hcreated.keeper horder
  exact ⟨l', hrun, hkeeper.resolveExtents⟩

/-- A leader with one file, just created. -/
def oneFile : Leader :=
  .start ((∅ : Rows Value).insert (.inode 2)
    (.inode (.v1 ⟨2, .regular, 0, 1, 0, 0, []⟩))) 1

theorem oneFile_justCreated : JustCreated oneFile.rows 2 where
  row := ⟨.v1 ⟨2, .regular, 0, 1, 0, 0, []⟩, by decide, rfl, rfl⟩
  pages := by
    intro r p
    exact lookup_insert_of_ne _ nofun

theorem resolveExtents_run_oneFile : Guarded.Meets (ExtentOp.step plainConfig 2) (InOrder 2)
        [.setInlineExtent 0 ⟨7, 10⟩ 10, .appendExtent 0 ⟨8, 10⟩ 10] oneFile ∧
      ∃ l', Guarded.run (ExtentOp.step plainConfig 2)
          [.setInlineExtent 0 ⟨7, 10⟩ 10, .appendExtent 0 ⟨8, 10⟩ 10] oneFile = some l' ∧
        l'.rows.resolveExtents 2 = .ok [⟨7, 0⟩, ⟨8, 10⟩] := by
  have horder : Guarded.Meets (ExtentOp.step plainConfig 2) (InOrder 2)
      [.setInlineExtent 0 ⟨7, 10⟩ 10, .appendExtent 0 ⟨8, 10⟩ 10] oneFile := by
    refine ⟨trivial, fun l hl => ⟨?_, fun _ _ => trivial⟩⟩
    cases hl
    intro m hm
    cases hm
    exact ⟨by decide, fun hlayout => InodeLayout.noConfusion hlayout⟩
  exact ⟨horder, resolveExtents_run plainConfig oneFile 2 oneFile_justCreated _ horder⟩

/-- A file is emptied, and appended to: the reference is in a page that is not counted. -/
theorem resolveExtents_run_emptied : ∃ l', Guarded.run (ExtentOp.step plainConfig 2)
        [.replaceExtents 0 [] 0, .appendExtent 0 ⟨8, 0⟩ 10] oneFile = some l' ∧
      l'.rows.resolveExtents 2 = .ok [] ∧
      [ExtentOp.replaceExtents 0 [] 0, .appendExtent 0 ⟨8, 0⟩ 10].foldl ExtentOp.next [] =
        [⟨8, 0⟩] :=
  ⟨_, rfl, rfl, rfl⟩

end Nufs.Metadata
