/-
What writes do to the rows.

A write that is accepted sets and deletes rows, and a batch with each key once leaves at
every key what its operation says.  The row of a file is written together with the counters
of its bucket, which move by what the size changed; beside that an operation on extents
touches pages of the file only.
-/
import Nufs.Proofs.Metadata.Replicas

namespace Nufs.Metadata

open List Finmap

variable {cfg : Config} {l : Leader} {id root : InodeID} {row row' row'' : InodeRow}
  {rows rows' rows'' : Rows Value} {ops : List (BatchOp Value)} {op : BatchOp Value}
  {deltaBytes deltaObjects : Int}

/-! ### Writes that succeed -/

section Logged

variable {entry : RaftLogEntry Value}

theorem logged_eq {r : Except FsmErr Unit}
    (h : Fsm.apply cfg.codec l.rows ⟨l.term, some entry⟩ = (r, rows)) :
    ∃ l', Op.logged cfg entry l = (r.mapError .fsm, l') ∧ l'.rows = rows := by
  refine ⟨_, Prod.ext ?_ rfl, ?_⟩
  · show (Fsm.apply cfg.codec l.rows ⟨l.term, some entry⟩).1.mapError ServiceErr.fsm = _
    rw [h]
  · show (Fsm.apply cfg.codec l.rows ⟨l.term, some entry⟩).2 = _
    rw [h]

theorem logged_of_accepts (h : Fsm.judge cfg.codec l.rows ⟨l.term, some entry⟩ = .ok ()) :
    ∃ l', Op.logged cfg entry l = (.ok (), l') ∧
      l'.rows = (Fsm.changes ⟨l.term, some entry⟩).foldl Change.apply l.rows := by
  refine logged_eq (r := .ok ()) ?_
  unfold Fsm.apply
  rw [h]

theorem logged_of_refuses {e : FsmErr}
    (h : Fsm.judge cfg.codec l.rows ⟨l.term, some entry⟩ = .error e) :
    ∃ l', Op.logged cfg entry l = (.error (.fsm e), l') ∧ l'.rows = l.rows := by
  refine logged_eq (r := .error e) ?_
  unfold Fsm.apply
  rw [h]

end Logged

theorem prepare_cons (h : Fsm.checkOp cfg.codec rows op = .ok ()) :
    Fsm.prepareReferenceAwareBatch cfg.codec rows (op :: ops) =
      Fsm.prepareReferenceAwareBatch cfg.codec (op.apply rows) ops := by
  rw [Fsm.prepareReferenceAwareBatch, h]
  rfl

abbrev Rows.HasInode (rows : Rows Value) (id : InodeID) (row : InodeRow) : Prop :=
  rows.lookup (.inode id) = some (.inode row)

section Bare

variable (hrow : rows.HasInode id row) (hid : row.asV1.id = id) (hid' : row'.asV1.id = id)
  (hbare : row'.asV1.chunkMap = [])
include hrow hid hid' hbare

/-- A row of an inode that names no chunks, whatever model the inode was in. -/
theorem checkInode_bare :
    Fsm.checkInode cfg.codec rows id (.inode row') = .ok () := by
  have hold : Fsm.decodeReferencedInode cfg.codec rows id = .ok row.asV1.chunkMap := by
    unfold Fsm.decodeReferencedInode
    rw [hrow]
    exact if_pos hid
  unfold Fsm.checkInode
  rw [hold]
  show (if row'.asV1.id ≠ id then _
    else if (Fsm.addedChunkReferences row.asV1.chunkMap row'.asV1.chunkMap).all _ then _ else _) = _
  rw [if_neg (not_not_intro hid'), hbare]
  rfl

theorem prepare_putRow :
    Fsm.prepareReferenceAwareBatch cfg.codec rows [.set (.inode id) (.inode row')] = .ok () :=
  prepare_cons (checkInode_bare hrow hid hid' hbare)

end Bare

/-! ### Operations of a batch -/

/-- What an operation leaves at its key. -/
def BatchOp.value : BatchOp Value → Option Value
  | set _ value => some value
  | delete _ => none

/-- The operations of a batch, one after the other. -/
def applyOps (ops : List (BatchOp Value)) (rows : Rows Value) : Rows Value :=
  (ops.map Change.op).foldl Change.apply rows

theorem BatchOp.lookup_apply (rows : Rows Value) (op : BatchOp Value) :
    (op.apply rows).lookup op.key = op.value := by
  cases op with
  | set key value => exact lookup_insert _
  | delete key => exact lookup_erase _ _

theorem lookup_applyOps_of_notMem {k : Key} (h : ∀ op ∈ ops, op.key ≠ k) (rows : Rows Value) :
    (applyOps ops rows).lookup k = rows.lookup k := by
  unfold applyOps
  rw [lookup_foldl_apply, patchOf_ops k ops h]
  rfl

/-- A key that is written once. -/
theorem lookup_applyOps_of_mem (hnodup : (ops.map BatchOp.key).Nodup) (hop : op ∈ ops)
    (rows : Rows Value) : (applyOps ops rows).lookup op.key = op.value := by
  induction ops generalizing rows with
  | nil => exact absurd hop not_mem_nil
  | cons o ops ih =>
    obtain ⟨hfirst, hrest⟩ := nodup_cons.mp hnodup
    show (applyOps ops (o.apply rows)).lookup op.key = op.value
    rcases mem_cons.mp hop with rfl | hop
    · have hnot : ∀ o ∈ ops, o.key ≠ op.key := by
        intro o ho heq
        exact hfirst (heq ▸ mem_map_of_mem ho)
      rw [lookup_applyOps_of_notMem hnot, BatchOp.lookup_apply]
    · exact ih hrest hop _

theorem applyBatch_ok (hne : ops ≠ [])
    (h : Fsm.prepareReferenceAwareBatch cfg.codec l.rows ops = .ok ()) :
    ∃ l', Op.applyBatch cfg ops l = (.ok (), l') ∧ l'.rows = applyOps ops l.rows := by
  have hjudge : Fsm.judge cfg.codec l.rows ⟨l.term, some (.batch ops)⟩ = .ok () := h
  obtain ⟨l', hlogged, hrows⟩ := logged_of_accepts hjudge
  refine ⟨l', ?_, hrows⟩
  unfold Op.applyBatch
  rw [if_neg hne]
  exact hlogged

/-! ### Counters of a bucket -/

/-- A key of the counters of a bucket. -/
def IsStats (k : Key) : Prop := ∃ root, k = .bucketStats root

theorem bucketStatsOp_cases (cfg : Config) (rows : Rows Value) (root : InodeID)
    (deltaBytes deltaObjects : Int) : rows.bucketStatsOp cfg root deltaBytes deltaObjects = [] ∨
      ∃ v, rows.bucketStatsOp cfg root deltaBytes deltaObjects = [.set (.bucketStats root) v] := by
  unfold Rows.bucketStatsOp
  split_ifs
  · exact .inl rfl
  · exact .inr ⟨_, rfl⟩

/-- Counters in front of a row of an inode do not matter to it. -/
theorem prepare_putStatsRow (hrow : rows.HasInode id row) (hid : row.asV1.id = id)
    (hid' : row'.asV1.id = id) (hbare : row'.asV1.chunkMap = [])
    (root : InodeID) (deltaBytes deltaObjects : Int) : Fsm.prepareReferenceAwareBatch cfg.codec rows
      (rows.bucketStatsOp cfg root deltaBytes deltaObjects ++
        [.set (.inode id) (.inode row')]) = .ok () := by
  rcases bucketStatsOp_cases cfg rows root deltaBytes deltaObjects with hnil | ⟨v, hv⟩
  · rw [hnil]
    exact prepare_putRow hrow hid hid' hbare
  rw [hv]
  have hstats : ((BatchOp.set (.bucketStats root) v).apply rows).HasInode id row := by
    refine .trans ?_ hrow
    exact lookup_insert_of_ne _ nofun
  exact (prepare_cons rfl).trans (prepare_putRow hstats hid hid' hbare)

theorem not_isStats_ns (p : InodeID) (n : List Char) : ¬ IsStats (.ns p n) := by
  rintro ⟨root, hroot⟩
  cases hroot

theorem not_isStats_inode (id : InodeID) : ¬ IsStats (.inode id) := by
  rintro ⟨root, hroot⟩
  cases hroot

theorem key_of_statsOp (h : op ∈ rows.bucketStatsOp cfg root deltaBytes deltaObjects) :
    op.key = .bucketStats root := by
  rcases bucketStatsOp_cases cfg rows root deltaBytes deltaObjects with hnil | ⟨v, hv⟩
  · rw [hnil] at h
    exact absurd h not_mem_nil
  · rw [hv] at h
    rw [mem_singleton.mp h]
    rfl

/-- The counters of a bucket once a change of one bucket's counters is applied. -/
def statsAfter (cfg : Config) (rows : Rows Value) (root : InodeID) (deltaBytes deltaObjects : Int)
    (r : InodeID) : Int × Int :=
  if cfg.useBucketStats = true ∧ root ≠ 0 ∧ r = root then
    ((rows.bucketStats root).1 + deltaBytes, (rows.bucketStats root).2 + deltaObjects)
  else rows.bucketStats r

theorem bucketStats_of_lookup {r : InodeID}
    (h : rows'.lookup (.bucketStats r) = rows.lookup (.bucketStats r)) :
    rows'.bucketStats r = rows.bucketStats r := by
  unfold Rows.bucketStats
  rw [h]

/-- Operations that change no counters but those of one bucket. -/
theorem bucketStats_applyOps (hnodup : (ops.map BatchOp.key).Nodup)
    (hsub : ∀ op ∈ rows.bucketStatsOp cfg root deltaBytes deltaObjects, op ∈ ops)
    (honly : ∀ op ∈ ops, IsStats op.key →
      op ∈ rows.bucketStatsOp cfg root deltaBytes deltaObjects) (r : InodeID) :
    (applyOps ops rows).bucketStats r = statsAfter cfg rows root deltaBytes deltaObjects r := by
  unfold statsAfter
  by_cases hcount : ¬ cfg.useBucketStats = true ∨ root = 0
  · have hnil : rows.bucketStatsOp cfg root deltaBytes deltaObjects = [] := if_pos hcount
    rw [if_neg fun h => hcount.elim (fun hstats => hstats h.1) h.2.1]
    refine bucketStats_of_lookup (lookup_applyOps_of_notMem (fun op hop hkey => ?_) rows)
    have hmem := honly op hop ⟨r, hkey⟩
    rw [hnil] at hmem
    exact absurd hmem not_mem_nil
  have hop : rows.bucketStatsOp cfg root deltaBytes deltaObjects =
      [.set (.bucketStats root) (.usage ((rows.bucketStats root).1 + deltaBytes)
        ((rows.bucketStats root).2 + deltaObjects))] := if_neg hcount
  obtain ⟨hstats, hroot⟩ := not_or.mp hcount
  by_cases hr : r = root
  · subst hr
    have hlookup := lookup_applyOps_of_mem hnodup (hsub _ (hop ▸ mem_cons_self)) rows
    rw [if_pos ⟨not_not.mp hstats, hroot, rfl⟩]
    show (applyOps ops rows).bucketStats r = _
    unfold Rows.bucketStats
    rw [show (applyOps ops rows).lookup (.bucketStats r) = _ from hlookup]
    rfl
  · rw [if_neg fun h => hr h.2.2]
    refine bucketStats_of_lookup (lookup_applyOps_of_notMem (fun op hmem hkey => ?_) rows)
    have hin := key_of_statsOp (honly op hmem ⟨r, hkey⟩)
    rw [hkey] at hin
    injection hin with hin
    exact hr hin

/-! ### A row with counters -/

/-- The batch with a row of an inode, and a change of the counters in front of it. -/
def rowBatch (cfg : Config) (rows : Rows Value) (root : InodeID) (deltaBytes : Int) (id : InodeID)
    (row : InodeRow) : List (BatchOp Value) :=
  rows.bucketStatsOp cfg root deltaBytes 0 ++ [.set (.inode id) (.inode row)]

theorem nodup_rowBatch : ((rowBatch cfg rows root deltaBytes id row).map BatchOp.key).Nodup := by
  unfold rowBatch
  rcases bucketStatsOp_cases cfg rows root deltaBytes 0 with hnil | ⟨v, hv⟩
  · rw [hnil]
    exact nodup_singleton _
  · rw [hv]
    simp [BatchOp.key]

theorem lookup_rowBatch :
    (applyOps (rowBatch cfg rows root deltaBytes id row) rows).HasInode id row := by
  have hmem : BatchOp.set (.inode id) (.inode row) ∈ rowBatch cfg rows root deltaBytes id row :=
    mem_append_right _ (.head _)
  exact lookup_applyOps_of_mem nodup_rowBatch hmem rows

theorem lookup_rowBatch_of_ne {k : Key} (hk : k ≠ .inode id) (hs : ¬ IsStats k) :
    (applyOps (rowBatch cfg rows root deltaBytes id row) rows).lookup k = rows.lookup k := by
  refine lookup_applyOps_of_notMem (forall_mem_append.mpr ⟨fun op hop heq => ?_, ?_⟩) rows
  · exact hs ⟨_, heq.symm.trans (key_of_statsOp hop)⟩
  · exact forall_mem_singleton.mpr hk.symm

theorem bucketStats_rowBatch (r : InodeID) :
    (applyOps (rowBatch cfg rows root deltaBytes id row) rows).bucketStats r =
      statsAfter cfg rows root deltaBytes 0 r := by
  refine bucketStats_applyOps nodup_rowBatch (fun op => mem_append_left _)
    (forall_mem_append.mpr ⟨fun op hop _ => hop, ?_⟩) r
  exact forall_mem_singleton.mpr fun hstat => absurd hstat (not_isStats_inode id)

section Put

variable (hrow : l.rows.HasInode id row) (hid : row.asV1.id = id)
include hrow hid

theorem putRow_ok (row' : InodeRow) (hid' : row'.asV1.id = id) (hbare : row'.asV1.chunkMap = []) :
    ∃ l', Op.put cfg (.inode id) (.inode row') l = (.ok (), l') ∧
      l'.rows = l.rows.insert (.inode id) (.inode row') :=
  logged_of_accepts (prepare_putRow hrow hid hid' hbare)

theorem rowBatch_ok (hid' : row'.asV1.id = id) (hbare : row'.asV1.chunkMap = []) (cfg : Config)
    (root : InodeID) (deltaBytes : Int) :
    ∃ l', Op.applyBatch cfg (rowBatch cfg l.rows root deltaBytes id row') l = (.ok (), l') ∧
      l'.rows = applyOps (rowBatch cfg l.rows root deltaBytes id row') l.rows :=
  applyBatch_ok (append_ne_nil_of_right_ne_nil _ (cons_ne_nil _ _))
    (prepare_putStatsRow hrow hid hid' hbare root deltaBytes 0)

theorem putWithBucketStats_ok {m : InodeMetaV2} (hm : m.id = id) (oldSize : Int) :
    ∃ l', Op.putWithBucketStats cfg m oldSize l = (.ok (), l') ∧ l'.rows =
        applyOps (rowBatch cfg l.rows m.bucketRoot (m.size - oldSize) id (.v2 m)) l.rows := by
  subst hm
  unfold Op.putWithBucketStats
  by_cases hstats : ¬ cfg.useBucketStats
  · have hnil : l.rows.bucketStatsOp cfg m.bucketRoot (m.size - oldSize) 0 = [] :=
      if_pos (.inl hstats)
    rw [if_pos hstats]
    unfold rowBatch
    rw [hnil]
    exact putRow_ok hrow hid _ rfl rfl
  · rw [if_neg hstats]
    exact rowBatch_ok hrow hid rfl rfl _ _ _

end Put

/-! ### Rows that are rewritten -/

/-- A page of the inode. -/
def IsPageOf (id : InodeID) (k : Key) : Prop := ∃ r p, k = .extentPage id r p

theorem not_isPageOf_inode (x : InodeID) : ¬ IsPageOf id (.inode x) := by
  rintro ⟨r, p, h⟩
  cases h

theorem not_isPageOf_stats (x : InodeID) : ¬ IsPageOf id (.bucketStats x) := by
  rintro ⟨r, p, h⟩
  cases h

/-- Only pages of the inode differ. -/
def PagesOnly (id : InodeID) (rows rows' : Rows Value) : Prop :=
  ∀ k, ¬ IsPageOf id k → rows'.lookup k = rows.lookup k

theorem PagesOnly.bucketStats (h : PagesOnly id rows rows') (r : InodeID) :
    rows'.bucketStats r = rows.bucketStats r :=
  bucketStats_of_lookup (h _ (not_isPageOf_stats r))

theorem PagesOnly.insert (root q : Nat) (v : Value) :
    PagesOnly id rows (rows.insert (.extentPage id root q) v) :=
  fun _ hk => lookup_insert_of_ne _ fun heq => hk ⟨root, q, heq⟩

/-- The row of a file is rewritten, and the counters of its bucket follow its size. -/
structure Rewritten (cfg : Config) (id : InodeID) (row row' : InodeRow) (rows rows' : Rows Value) :
    Prop where
  found : rows.lookup (.inode id) = some (.inode row)
  written : rows'.lookup (.inode id) = some (.inode row')
  type : row'.asV2.type = row.asV2.type
  nlink : row'.asV2.nlink = row.asV2.nlink
  root : row'.asV2.bucketRoot = row.asV2.bucketRoot
  others : ∀ k, k ≠ .inode id → ¬ IsStats k → ¬ IsPageOf id k → rows'.lookup k = rows.lookup k
  stats : ∀ r, rows'.bucketStats r =
    statsAfter cfg rows row.asV2.bucketRoot (row'.asV2.size - row.asV2.size) 0 r

namespace Rewritten

theorem before (h : Rewritten cfg id row row' rows' rows'') (hpages : PagesOnly id rows rows') :
    Rewritten cfg id row row' rows rows'' where
  found := (hpages _ (not_isPageOf_inode id)).symm.trans h.found
  written := h.written
  type := h.type
  nlink := h.nlink
  root := h.root
  others := fun k hk hs hp => (h.others k hk hs hp).trans (hpages k hp)
  stats := by
    intro r
    rw [h.stats]
    unfold statsAfter
    rw [hpages.bucketStats, hpages.bucketStats]

theorem after (h : Rewritten cfg id row row' rows rows') (hpages : PagesOnly id rows' rows'') :
    Rewritten cfg id row row' rows rows'' where
  found := h.found
  written := (hpages _ (not_isPageOf_inode id)).trans h.written
  type := h.type
  nlink := h.nlink
  root := h.root
  others := fun k hk hs hp => (hpages k hp).trans (h.others k hk hs hp)
  stats := fun r => (hpages.bucketStats r).trans (h.stats r)

theorem trans (h : Rewritten cfg id row row' rows rows')
    (h' : Rewritten cfg id row' row'' rows' rows'') : Rewritten cfg id row row'' rows rows'' where
  found := h.found
  written := h'.written
  type := h'.type.trans h.type
  nlink := h'.nlink.trans h.nlink
  root := h'.root.trans h.root
  others := fun k hk hs hp => (h'.others k hk hs hp).trans (h.others k hk hs hp)
  stats := by
    intro r
    rw [h'.stats]
    unfold statsAfter
    rw [h.root, h.stats, h.stats]
    unfold statsAfter
    by_cases hr : cfg.useBucketStats = true ∧ row.asV2.bucketRoot ≠ 0 ∧ r = row.asV2.bucketRoot
    · rw [if_pos hr, if_pos hr, if_pos ⟨hr.1, hr.2.1, rfl⟩]
      refine Prod.ext ?_ ?_
      · show _ + _ + _ = _ + _
        omega
      · show _ + (0 : Int) + 0 = _ + 0
        omega
    · rw [if_neg hr, if_neg hr, if_neg hr]

end Rewritten

theorem statsAfter_zero (root r : InodeID) : statsAfter cfg rows root 0 0 r =
    rows.bucketStats r := by
  unfold statsAfter
  by_cases hr : cfg.useBucketStats = true ∧ root ≠ 0 ∧ r = root
  · rw [if_pos hr, hr.2.2, Int.add_zero, Int.add_zero]
  · rw [if_neg hr]

section Written

variable (hrow : rows.HasInode id row)
  (htype : row'.asV2.type = row.asV2.type) (hnlink : row'.asV2.nlink = row.asV2.nlink)
  (hroot : row'.asV2.bucketRoot = row.asV2.bucketRoot)
include hrow htype hnlink hroot

/-- The row and the counters in one batch. -/
theorem rewritten_rowBatch :
    Rewritten cfg id row row' rows (applyOps (rowBatch cfg rows row.asV2.bucketRoot
      (row'.asV2.size - row.asV2.size) id row') rows) :=
  ⟨hrow, lookup_rowBatch, htype, hnlink, hroot, fun _ hk hs _ => lookup_rowBatch_of_ne hk hs,
    bucketStats_rowBatch⟩

/-- The row alone, with the size it had. -/
theorem rewritten_insert (hsize : row'.asV2.size = row.asV2.size) :
    Rewritten cfg id row row' rows (rows.insert (.inode id) (.inode row')) := by
  refine ⟨hrow, lookup_insert _, htype, hnlink, hroot,
    fun k hk _ _ => lookup_insert_of_ne _ hk, fun r => ?_⟩
  rw [hsize, Int.sub_self, statsAfter_zero]
  exact bucketStats_of_lookup (lookup_insert_of_ne _ nofun)

end Written

end Nufs.Metadata
