/-
Chunks that are committed are read back.

A commit puts a row for every extent, then the layout.  Reading goes through the layout to
the extents' rows, so what comes back is what was committed as soon as two references to
one extent agree on its length, and the extent in the row, which has no offset, is only
used where the offset is zero.
-/
import Nufs.Metadata.FileChunks
import Nufs.Proofs.Metadata.Extents

namespace Nufs.Metadata

open List ExceptBind Op

variable {cfg : Config}

/-! ### Rows of extents -/

variable (cfg : Config)

theorem putExtentMeta_ok (ext : ExtentMeta) (l : Leader) :
    ∃ l', putExtentMeta cfg ext l = (.ok (), l') ∧
      l'.rows = l.rows.insert (.extentMeta ext.id) (.extent ext) :=
  logged_of_accepts rfl

/-- The last write to an extent stands; writes that agree all stand. -/
theorem putExtentMetas_ok (writes : List ExtentWrite) (l : Leader)
    (hagree : ∀ w ∈ writes, ∀ w' ∈ writes, w.extent.id = w'.extent.id → w.extent = w'.extent) :
    ∃ l', putExtentMetas cfg writes l = (.ok (), l') ∧
      (∀ w ∈ writes, l'.rows.lookup (.extentMeta w.extent.id) = some (.extent w.extent)) ∧
      ∀ k, (∀ w ∈ writes, k ≠ .extentMeta w.extent.id) → l'.rows.lookup k = l.rows.lookup k := by
  induction writes generalizing l with
  | nil => exact ⟨l, rfl, fun w hw => absurd hw not_mem_nil, fun _ _ => rfl⟩
  | cons w writes ih =>
    obtain ⟨l1, hl1, hrows1⟩ := putExtentMeta_ok cfg w.extent l
    obtain ⟨l', hl', hfound, hothers⟩ := ih l1 fun a ha b hb =>
      hagree a (.tail _ ha) b (.tail _ hb)
    refine ⟨l', ?_, fun a ha => ?_, fun k hk => ?_⟩
    · show (putExtentMeta cfg w.extent >>= fun _ => .putExtentMetas cfg writes) l = _
      rw [bind_ok hl1, hl']
    · rcases mem_cons.mp ha with rfl | ha
      · -- a later write to the same extent says the same
        by_cases hlater : ∃ b ∈ writes, b.extent.id = a.extent.id
        · obtain ⟨b, hb, hid⟩ := hlater
          have hsame := hagree b (.tail _ hb) a (.head _) hid
          rw [← hsame]
          exact hfound b hb
        · rw [hothers, hrows1, Finmap.lookup_insert]
          intro b hb hkey
          injection hkey with hid
          exact hlater ⟨b, hb, hid.symm⟩
      · exact hfound a ha
    · rw [hothers k fun b hb => hk b (.tail _ hb), hrows1,
        Finmap.lookup_insert_of_ne _ (hk w (.head _))]

/-! ### Rows of inodes -/

variable {l : Leader} {id : InodeID} {row : InodeRow} {rows : Rows Value} {refs : List ChunkRef}
  {ref : ChunkRef} {size : Int}

theorem not_isStats_extentMeta (id : ChunkID) : ¬ IsStats (.extentMeta id) := by
  rintro ⟨root, hroot⟩
  cases hroot

theorem not_isPageOf_extentMeta (id : InodeID) (ext : ChunkID) :
    ¬ IsPageOf id (.extentMeta ext) := by
  rintro ⟨r, p, hp⟩
  cases hp

theorem setInlineExtent_ok (hrow : l.rows.HasInode id row)
    (hid : row.asV1.id = id) (now : Int) (ext : ExtentMeta) (size : Int) :
    ∃ l', setInlineExtent cfg now id ext size l = (.ok (), l') ∧
      l'.rows.lookup (.inode id) = some (.inode (.v2 (row.asV2.inlining ext size now))) ∧
      l'.rows.lookup (.extentMeta ext.id) = some (.extent ext) := by
  obtain ⟨l1, hl1, hrows1⟩ := putExtentMeta_ok cfg ext l
  have hrow1 : l1.rows.lookup (.inode id) = some (.inode row) := by
    rw [hrows1, ← hrow]
    exact Finmap.lookup_insert_of_ne _ Key.noConfusion
  obtain ⟨l', hl', -, hre⟩ :=
    setInlineRow_ok hrow1 ((asV1_id row).symm.trans hid) cfg now ext size
  refine ⟨l', ?_, hre.written, ?_⟩
  · show (putExtentMeta cfg ext >>= fun _ => .setInlineRow cfg now id ext size) l = _
    rw [bind_ok hl1, hl']
  · rw [hre.others _ Key.noConfusion (not_isStats_extentMeta _) (not_isPageOf_extentMeta _ _),
      hrows1, Finmap.lookup_insert]

theorem replaceExtents_ok (hrow : l.rows.HasInode id row)
    (hid : row.asV1.id = id) (now : Int) (writes : List ExtentWrite) (size : Int)
    (hagree : ∀ w ∈ writes, ∀ w' ∈ writes, w.extent.id = w'.extent.id → w.extent = w'.extent) :
    ∃ l', replaceExtents cfg now id writes size l = (.ok (), l') ∧
      l'.rows.lookup (.inode id) =
        some (.inode (.v2 (row.asV2.paged (pageCountOf writes) size now))) ∧
      (∀ p < pageCountOf writes,
        l'.rows.lookup (.extentPage id (nextRoot row.asV2.extentRoot) p) =
          some (.page (pageOf writes p))) ∧
      ∀ w ∈ writes, l'.rows.lookup (.extentMeta w.extent.id) = some (.extent w.extent) := by
  obtain ⟨l1, hl1, hmetas, hothers1⟩ := putExtentMetas_ok cfg writes l hagree
  have hrow1 : l1.rows.lookup (.inode id) = some (.inode row) := by
    rw [hothers1 _ fun _ _ => Key.noConfusion, hrow]
  obtain ⟨l2, l', hl', hpages, -, hsw, hre⟩ :=
    replaceRows_ok hrow1 ((asV1_id row).symm.trans hid) cfg now writes size
  refine ⟨l', ?_, hre.written, fun p hp => ?_, fun w hw => ?_⟩
  · show (putExtentMetas cfg writes >>= fun _ => .replaceRows cfg now id writes size) l = _
    rw [bind_ok hl1, hl']
  · rw [hsw.pages _ _ (nextRoot_ne _), hpages p hp]
  · rw [hre.others _ Key.noConfusion (not_isStats_extentMeta _) (not_isPageOf_extentMeta _ _),
      hmetas w hw]

/-! ### Reading back -/

/-- A row of the new model has no chunks, and its extents are looked up. -/
theorem resolveFileChunks_of_v2 {m : InodeMetaV2} {extents : List ExtentRef} (hm : m.id = id)
    (hext : rows.resolveExtents id = .ok extents)
    (hrefs : extents.mapM rows.refOfExtent = .ok refs) :
    rows.resolveFileChunks (InodeRow.v2 m).asV1 = .ok refs := by
  have hbare : (InodeRow.v2 m).asV1.chunkMap = [] := rfl
  unfold Rows.resolveFileChunks
  rw [if_neg (not_not_intro hbare)]
  show (rows.resolveExtents m.id >>= fun refs => refs.mapM rows.refOfExtent) = _
  rw [hm, hext]
  exact hrefs

theorem refOfExtent_of_lookup
    (h : rows.lookup (.extentMeta ref.id) = some (.extent (Store.extentForRef ref)))
    (hlo : -2 ^ 31 ≤ ref.length) (hhi : ref.length < 2 ^ 31) :
    rows.refOfExtent (Store.extentRefOf ref) = .ok ref := by
  have hget : rows.getExtentMeta ref.id = .ok (Store.extentForRef ref) := by
    unfold Rows.getExtentMeta
    rw [h]
  show (rows.getExtentMeta ref.id >>= fun ext =>
    pure (⟨ref.id, ref.offset, Word.int32 ext.logicalLen⟩ : ChunkRef)) = _
  rw [hget]
  show Except.ok (⟨ref.id, ref.offset, Word.int32 ref.length⟩ : ChunkRef) = _
  rw [Word.int32_eq hlo hhi]

theorem mapM_refOfExtent (h : ∀ ref ∈ refs, rows.refOfExtent (Store.extentRefOf ref) = .ok ref) :
    (refs.map Store.extentRefOf).mapM rows.refOfExtent = .ok refs := by
  rw [mapM_map]
  exact (mapM_eq_pure h).trans (congrArg _ (map_id _))

/-! ### A file that has no extents -/

/-- The rows under the keys of an inode's pages are pages. -/
def PagesDecode (rows : Rows Value) (id : InodeID) : Prop :=
  ∀ root p v, rows.lookup (.extentPage id root p) = some v → ∃ extents, v = .page extents

theorem PagesDecode.resolvePage (h : PagesDecode rows id) (p root : Nat) :
    ∃ page, rows.resolvePage id p root = .ok page := by
  induction root with
  | zero => exact ⟨none, rfl⟩
  | succ root ih =>
    cases hv : rows.lookup (.extentPage id (root + 1) p) with
    | none => rw [resolvePage_below hv]; exact ih
    | some v =>
      obtain ⟨extents, rfl⟩ := h _ _ _ hv
      exact ⟨some extents, resolvePage_top hv⟩

theorem PagesDecode.resolveExtents (h : PagesDecode rows id)
    (hrow : rows.HasInode id row) (hid : row.asV1.id = id) :
    ∃ refs, rows.resolveExtents id = .ok refs := by
  have hm : row.asV2.id = id := (asV1_id row).symm.trans hid
  rw [resolveExtents_of_row hrow]
  unfold extentsOf
  cases row.asV2.layout with
  | empty => exact ⟨[], rfl⟩
  | inlineExtent ext => exact ⟨[⟨ext.id, 0⟩], rfl⟩
  | extentPages =>
    have hread : ∀ p ∈ List.range row.asV2.extentPageCount,
        ∃ page, rows.resolvePage row.asV2.id p row.asV2.extentRoot = .ok page := by
      intro p _
      rw [hm]
      exact h.resolvePage p row.asV2.extentRoot
    choose! page hpage using hread
    refine ⟨((List.range row.asV2.extentPageCount).map page).flatMap fun page => page.getD [], ?_⟩
    show rows.resolvePages row.asV2 = _
    unfold Rows.resolvePages
    rw [mapM_eq_pure hpage]
    rfl

/-- The probe of an inode as it was read. -/
theorem isV2_ok (h : PagesDecode l.rows id) (hrow : l.rows.HasInode id row)
    (hid : row.asV1.id = id) :
    ∃ b, isV2 row.asV1 l = (.ok b, l) ∧
      (b = false → row.asV1.chunkMap = [] → l.rows.resolveExtents id = .ok []) := by
  obtain ⟨refs, hrefs⟩ := h.resolveExtents hrow hid
  unfold isV2
  by_cases hmap : row.asV1.chunkMap = []
  · rw [if_neg (not_not_intro hmap), hid]
    refine ⟨decide (refs ≠ []), ?_, fun hb _ => ?_⟩
    · show (Op.lift (l.rows.resolveExtents id) >>= fun refs => pure (decide (refs ≠ []))) l = _
      rw [hrefs]
      rfl
    · rw [hrefs, not_not.mp (of_decide_eq_false hb)]
  · rw [if_pos hmap]
    exact ⟨false, rfl, fun _ hnil => absurd hnil hmap⟩

/-- The extents of an inode stand where they stood. -/
structure SameExtents (row row' : InodeRow) : Prop where
  id : row'.asV2.id = row.asV2.id
  layout : row'.asV2.layout = row.asV2.layout
  root : row'.asV2.extentRoot = row.asV2.extentRoot
  count : row'.asV2.extentPageCount = row.asV2.extentPageCount

theorem SameExtents.resolveExtents {rows' : Rows Value} {row' : InodeRow}
    (h : SameExtents row row') (hrow : rows.HasInode id row) (hrow' : rows'.HasInode id row')
    (hpages : ∀ x r p, rows'.lookup (.extentPage x r p) = rows.lookup (.extentPage x r p)) :
    rows'.resolveExtents id = rows.resolveExtents id := by
  have hread : rows'.resolvePages row'.asV2 = rows.resolvePages row.asV2 := by
    unfold Rows.resolvePages
    rw [h.id, h.root, h.count]
    have hpage : ∀ p, rows'.resolvePage row.asV2.id p row.asV2.extentRoot =
        rows.resolvePage row.asV2.id p row.asV2.extentRoot :=
      fun p => resolvePage_congr fun r _ => hpages _ r p
    simp only [hpage]
  rw [resolveExtents_of_row hrow, resolveExtents_of_row hrow']
  unfold extentsOf
  rw [h.layout, hread]

theorem resolveExtents_empty (hrow : rows.HasInode id row)
    (hlayout : row.asV2.layout = .empty) : rows.resolveExtents id = .ok [] := by
  rw [resolveExtents_of_row hrow]
  unfold extentsOf
  rw [hlayout]

theorem updateInodeBatch_of_row {m : InodeMeta}
    (hrow : rows.HasInode m.id row) (now : Int) :
    updateInodeBatch cfg rows now m =
      if row.asV2.layout = .empty then
        .ok (rowBatch cfg rows row.asV2.bucketRoot (m.size - row.asV2.size) m.id
          (.v1 { m with ctime := now }))
      else if m.chunkMap ≠ [] then .error .inodeModelMismatch
      else .ok (rowBatch cfg rows m.bucketRoot (m.size - row.asV2.size) m.id
        (.v2 { row.asV2 with
          size := m.size, nlink := m.nlink, bucketRoot := m.bucketRoot, ctime := now })) := by
  unfold updateInodeBatch
  simp only [inode_of_lookup hrow]
  rfl

/-- An update without chunks: the row ends without extents, or with those it had. -/
theorem updateInodeBatch_bare {m : InodeMeta}
    (hrow : rows.HasInode m.id row) (hid : row.asV1.id = m.id)
    (hbare : m.chunkMap = []) (now : Int) :
    ∃ root delta row', updateInodeBatch cfg rows now m =
        .ok (rowBatch cfg rows root delta m.id row') ∧
      row'.asV1.id = m.id ∧ row'.asV1.chunkMap = [] ∧
      (row'.asV2.layout = .empty ∨ row.asV1.chunkMap = [] ∧ SameExtents row row') := by
  rw [updateInodeBatch_of_row cfg hrow]
  by_cases hlayout : row.asV2.layout = .empty
  · rw [if_pos hlayout]
    exact ⟨_, _, _, rfl, rfl, hbare, .inl rfl⟩
  rw [if_neg hlayout, if_neg (not_not_intro hbare)]
  cases row with
  | v1 v => exact absurd rfl hlayout
  | v2 v => exact ⟨_, _, _, rfl, hid, rfl, .inr ⟨rfl, rfl, rfl, rfl, rfl⟩⟩

/-- A file without extents stays one when its chunks are taken away. -/
theorem updateInode_bare {m : InodeMeta}
    (hrow : l.rows.HasInode m.id row) (hid : row.asV1.id = m.id) (hbare : m.chunkMap = [])
    (hnone : row.asV1.chunkMap = [] → l.rows.resolveExtents m.id = .ok []) (now : Int) :
    ∃ l' row', updateInode cfg now m l = (.ok (), l') ∧ l'.rows.HasInode m.id row' ∧
      l'.rows.resolveFileChunks row'.asV1 = .ok [] := by
  obtain ⟨root, delta, row', hbatch, hid', hbare', hextents⟩ :=
    updateInodeBatch_bare cfg hrow hid hbare now
  obtain ⟨l', hl', hrows⟩ := rowBatch_ok hrow hid hid' hbare' cfg root delta
  have hrow' : l'.rows.lookup (.inode m.id) = some (.inode row') := by
    rw [hrows]
    exact lookup_rowBatch
  have hpages : ∀ x r p,
      l'.rows.lookup (.extentPage x r p) = l.rows.lookup (.extentPage x r p) := by
    intro x r p
    rw [hrows]
    exact lookup_rowBatch_of_ne nofun not_isStats_page
  have hresolve : l'.rows.resolveExtents m.id = .ok [] := by
    rcases hextents with hempty | ⟨hnil, hsame⟩
    · exact resolveExtents_empty hrow' hempty
    · rw [hsame.resolveExtents hrow hrow' hpages, hnone hnil]
  refine ⟨l', row', ?_, hrow', ?_⟩
  · show (Op.lift (updateInodeBatch cfg l.rows now m) >>= applyBatch cfg) l = _
    rw [hbatch]
    exact hl'
  · unfold Rows.resolveFileChunks
    rw [if_neg (not_not_intro hbare'), hid', hresolve]
    rfl

/-! ### The round trip -/

/-- References of a file of a size: at distinct places of whole chunks, and inside the file. -/
structure InFile (size : Int) (refs : List ChunkRef) : Prop where
  size_lt : size < 2 ^ 63
  distinct : (refs.map ChunkRef.offset).Nodup
  aligned : ∀ ref ∈ refs, (maxChunkSize : Int) ∣ ref.offset
  inside : ∀ ref ∈ refs, ref.offset + ref.length ≤ size
  length_ge : ∀ ref ∈ refs, -2 ^ 31 ≤ ref.length
  length_lt : ∀ ref ∈ refs, ref.length < 2 ^ 31

/-- A file has at most `2 ^ 37` whole chunks, as its size is a 64-bit number. -/
theorem InFile.length_le (h : InFile size refs) (hoffset : ∀ ref ∈ refs, 0 ≤ ref.offset)
    (hlength : ∀ ref ∈ refs, 0 ≤ ref.length) : refs.length ≤ 2 ^ 37 := by
  let places := (refs.map ChunkRef.offset).map fun o => (o / (maxChunkSize : Int)).toNat
  have hplace : ∀ o ∈ refs.map ChunkRef.offset,
      ∃ n < 2 ^ 37, o = (maxChunkSize : Int) * (n : Nat) := by
    intro o ho
    obtain ⟨ref, href, rfl⟩ := mem_map.mp ho
    obtain ⟨n, hn⟩ := h.aligned ref href
    have hinside := h.inside ref href
    have hsize := h.size_lt
    have h0 := hoffset ref href
    have h1 := hlength ref href
    unfold maxChunkSize at hn ⊢
    exact ⟨n.toNat, by omega, by omega⟩
  have hdistinct : places.Nodup := by
    refine .map_on ?_ h.distinct
    intro a ha b hb hab
    obtain ⟨n, -, rfl⟩ := hplace a ha
    obtain ⟨k, -, rfl⟩ := hplace b hb
    unfold maxChunkSize at hab ⊢
    omega
  have hsub : places ⊆ List.range (2 ^ 37) := by
    intro p hp
    obtain ⟨o, ho, rfl⟩ := mem_map.mp hp
    obtain ⟨n, hn, rfl⟩ := hplace o ho
    refine mem_range.mpr ?_
    unfold maxChunkSize
    omega
  have hle := (hdistinct.subperm hsub).length_le
  rwa [length_map, length_map, length_range] at hle

theorem setInlineExtent_resolve
    (hrow : l.rows.HasInode id row) (hid : row.asV1.id = id) (now : Int)
    (size : Int) (hoffset : ref.offset = 0) (hlo : -2 ^ 31 ≤ ref.length)
    (hhi : ref.length < 2 ^ 31) :
    ∃ l' row', setInlineExtent cfg now id (Store.extentForRef ref) size l = (.ok (), l') ∧
      l'.rows.HasInode id row' ∧ l'.rows.resolveFileChunks row'.asV1 = .ok [ref] := by
  obtain ⟨l', hl', hrow', hmeta⟩ :=
    setInlineExtent_ok cfg hrow hid now (Store.extentForRef ref) size
  have hm : row.asV2.id = id := (asV1_id row).symm.trans hid
  have hread : l'.rows.resolveExtents id = .ok ([ref].map Store.extentRefOf) := by
    unfold Rows.resolveExtents
    rw [inode_of_lookup hrow']
    show Except.ok [(⟨ref.id, 0⟩ : ExtentRef)] = .ok [⟨ref.id, ref.offset⟩]
    rw [hoffset]
  refine ⟨l', _, hl', hrow', resolveFileChunks_of_v2 hm hread (mapM_refOfExtent fun r hr => ?_)⟩
  obtain rfl := mem_singleton.mp hr
  exact refOfExtent_of_lookup hmeta hlo hhi

/-- The only reference of a small file is at its start. -/
theorem InFile.offset_eq_zero (h : InFile size [ref]) (hsize : size ≤ maxInlineExtentSize)
    (hoffset : 0 ≤ ref.offset) (hlength : 0 ≤ ref.length) : ref.offset = 0 := by
  obtain ⟨n, hn⟩ := h.aligned ref mem_cons_self
  have hinside := h.inside ref mem_cons_self
  unfold maxInlineExtentSize at hsize
  unfold maxChunkSize at hn
  omega

section Resolve

variable (cfg : Config) (hrow : l.rows.HasInode id row) (hid : row.asV1.id = id)
  (hroot : row.asV2.extentRoot + 1 < 2 ^ 64) (now : Int) (hfile : InFile size refs)
  (hagree : ∀ r ∈ refs, ∀ r' ∈ refs, r.id = r'.id → r.length = r'.length)
include hrow hid hroot hfile hagree

theorem replaceExtents_resolve (hcount : refs.length ≤ 2 ^ 37) :
    ∃ l' row', replaceExtents cfg now id (refs.map writeForRef) size l = (.ok (), l') ∧
      l'.rows.HasInode id row' ∧ l'.rows.resolveFileChunks row'.asV1 = .ok refs := by
  have hextents : ∀ w ∈ refs.map writeForRef, ∀ w' ∈ refs.map writeForRef,
      w.extent.id = w'.extent.id → w.extent = w'.extent := by
    intro w hw w' hw' hsame
    obtain ⟨r, hr, rfl⟩ := mem_map.mp hw
    obtain ⟨r', hr', rfl⟩ := mem_map.mp hw'
    have hids : r.id = r'.id := hsame
    show (⟨r.id, r.length⟩ : ExtentMeta) = ⟨r'.id, r'.length⟩
    rw [hids, hagree r hr r' hr' hids]
  obtain ⟨l', hl', hrow', hpages, hmetas⟩ :=
    replaceExtents_ok cfg hrow hid now (refs.map writeForRef) size hextents
  have hm : row.asV2.id = id := (asV1_id row).symm.trans hid
  have hnext := nextRoot_of_lt hroot
  have hpageCount : pageCountOf (refs.map writeForRef) =
      (refs.length + maxExtentsPerPage - 1) / maxExtentsPerPage := by
    unfold pageCountOf toPageNo maxExtentsPerPage
    rw [length_map]
    exact Nat.mod_eq_of_lt (by omega)
  have hread : l'.rows.resolveExtents id = .ok (refs.map Store.extentRefOf) := by
    unfold Rows.resolveExtents
    rw [inode_of_lookup hrow']
    show l'.rows.resolvePages _ = _
    have hin : InPages l'.rows row.asV2.id (nextRoot row.asV2.extentRoot)
        (pageCountOf (refs.map writeForRef)) (pageOf (refs.map writeForRef)) := by
      rw [hm]
      refine ⟨fun p hp => ?_, fun hpos => hpages _ (Nat.sub_lt hpos Nat.one_pos)⟩
      have htop := hpages p hp
      rw [hnext] at htop ⊢
      exact resolvePage_top htop
    rw [InPages.resolvePages hin]
    show Except.ok (refsOf (pageCountOf (refs.map writeForRef)) _) = _
    rw [refsOf_pageOf, take_of_length_le, map_map]
    · rfl
    · rw [hpageCount, length_map]
      unfold maxExtentsPerPage
      omega
  refine ⟨l', _, hl', hrow', resolveFileChunks_of_v2 hm hread (mapM_refOfExtent fun r hr => ?_)⟩
  exact refOfExtent_of_lookup (hmetas _ (mem_map_of_mem hr)) (hfile.length_ge r hr)
    (hfile.length_lt r hr)

theorem commitExtents_resolve (hoffset : ∀ ref ∈ refs, 0 ≤ ref.offset)
    (hlength : ∀ ref ∈ refs, 0 ≤ ref.length) :
    ∃ l' row', commitExtents cfg now id size refs l = (.ok (), l') ∧ l'.rows.HasInode id row' ∧
      l'.rows.resolveFileChunks row'.asV1 = .ok refs := by
  have hpages := replaceExtents_resolve cfg hrow hid hroot now hfile hagree
    (hfile.length_le hoffset hlength)
  unfold commitExtents
  split
  · rename_i ref
    split_ifs with hsize
    · exact setInlineExtent_resolve cfg hrow hid now size
        (hfile.offset_eq_zero hsize (hoffset ref (.head _)) (hlength ref (.head _)))
        (hfile.length_ge ref (.head _)) (hfile.length_lt ref (.head _))
    · exact hpages
  · exact hpages

end Resolve

/--
**Committed chunks are read back.**  Whatever model an inode is in, the references of a file
that are committed are what the file resolves to afterwards, as long as no place or length
is negative, references to one chunk agree on its length, and the roots do not run out.
-/
theorem commitChunkRefs_resolve {l : Leader} {id : InodeID} {row : InodeRow}
    (hrow : l.rows.lookup (.inode id) = some (.inode row)) (hid : row.asV1.id = id)
    (hdecode : PagesDecode l.rows id) (hroot : row.asV2.extentRoot + 1 < 2 ^ 64) (now : Int)
    {size : Int} {refs : List ChunkRef} (hfile : InFile size refs)
    (hoffset : ∀ ref ∈ refs, 0 ≤ ref.offset) (hlength : ∀ ref ∈ refs, 0 ≤ ref.length)
    (hagree : ∀ r ∈ refs, ∀ r' ∈ refs, r.id = r'.id → r.length = r'.length) :
    ∃ l' row', commitChunkRefsModelAware cfg now row.asV1 refs size l = (.ok (), l') ∧
      l'.rows.inode id = .ok (some row') ∧ l'.rows.resolveFileChunks row'.asV1 = .ok refs := by
  obtain ⟨b, hprobe, hnone⟩ := isV2_ok hdecode hrow hid
  unfold commitChunkRefsModelAware
  rw [bind_ok hprobe]
  by_cases hland : b = true ∨ refs ≠ []
  · obtain ⟨l', row', hl', hrow', hresolve⟩ :=
      commitExtents_resolve cfg hrow hid hroot now hfile hagree hoffset hlength
    refine ⟨l', row', ?_, inode_of_lookup hrow', hresolve⟩
    rw [if_pos hland, hid]
    exact hl'
  obtain ⟨hb, hrefs⟩ := not_or.mp hland
  obtain rfl : refs = [] := not_not.mp hrefs
  have hb' : b = false := Bool.eq_false_iff.mpr hb
  subst hid
  let m : InodeMeta := { row.asV1 with size, chunkMap := [] }
  obtain ⟨l', row', hl', hrow', hresolve⟩ :=
    updateInode_bare cfg (m := m) hrow rfl rfl (hnone hb') now
  refine ⟨l', row', ?_, inode_of_lookup hrow', hresolve⟩
  rw [if_neg hland]
  exact hl'

theorem commitChunkRefs_resolve_sparse :
    ∃ l' row', commitChunkRefsModelAware plainConfig 0 ⟨2, .regular, 0, 1, 0, 0, []⟩
        [⟨7, 0, 10⟩, ⟨8, 2 * maxChunkSize, 20⟩] (2 * maxChunkSize + 20) oneFile = (.ok (), l') ∧
      l'.rows.inode 2 = .ok (some row') ∧
      l'.rows.resolveFileChunks row'.asV1 = .ok [⟨7, 0, 10⟩, ⟨8, 2 * maxChunkSize, 20⟩] := by
  have hrow : oneFile.rows.lookup (.inode 2) =
      some (.inode (.v1 ⟨2, .regular, 0, 1, 0, 0, []⟩)) := by decide
  have hdecode : PagesDecode oneFile.rows 2 := by
    intro r p v hv
    rw [oneFile_justCreated.pages] at hv
    cases hv
  have hfile : InFile (2 * maxChunkSize + 20) [⟨7, 0, 10⟩, ⟨8, 2 * maxChunkSize, 20⟩] :=
    ⟨by decide, by decide, by decide, by decide, by decide, by decide⟩
  exact commitChunkRefs_resolve plainConfig hrow rfl hdecode (by decide) 0 hfile (by decide)
    (by decide) (by decide)

/-- Two references to one chunk with different lengths: the extent has the last one. -/
theorem commitChunkRefs_shared_extent :
    InFile (maxChunkSize + 20) [⟨5, 0, 10⟩, ⟨5, maxChunkSize, 20⟩] ∧
      ∃ l' row', commitChunkRefsModelAware plainConfig 0 ⟨2, .regular, 0, 1, 0, 0, []⟩
          [⟨5, 0, 10⟩, ⟨5, maxChunkSize, 20⟩] (maxChunkSize + 20) oneFile = (.ok (), l') ∧
        l'.rows.inode 2 = .ok (some row') ∧
        l'.rows.resolveFileChunks row'.asV1 = .ok [⟨5, 0, 20⟩, ⟨5, maxChunkSize, 20⟩] :=
  ⟨⟨by decide, by decide, by decide, by decide, by decide, by decide⟩, _, _, rfl, rfl, rfl⟩

end Nufs.Metadata
