/-
What the operations of the namespace do to rows.

An operation is refused and leaves the rows as they were, or its batch is applied; beside
the batch only the free list changes.  What a batch does is read off its operations, since
a conditional batch has each key once.
-/
import Nufs.Lib.ExceptBind
import Nufs.Proofs.Metadata.Extents

namespace Nufs.Metadata

open ExceptBind List ConditionalBatch Op

variable {cfg : Config}

/-! ### Rows beside the free list -/

/-- The key is not one of the free list. -/
def Visible (k : Key) : Prop := ∀ id, k ≠ .freeList id

/-- The rows are the same, but for the free list. -/
def SameRows (rows rows' : Rows Value) : Prop :=
  ∀ k, Visible k → rows'.lookup k = rows.lookup k

theorem SameRows.refl (rows : Rows Value) : SameRows rows rows := fun _ _ => rfl

variable {rows rows' rows1 : Rows Value} {l : Leader} {ops : List (BatchOp Value)}
  {op : BatchOp Value} {c batch : ConditionalBatch Value} {p id parent : InodeID}
  {n name : List Char} {row : Option InodeRow} {d : DirEntry} {now : Int}

theorem SameRows.of_eq (h : rows' = rows) : SameRows rows rows' := by
  rw [h]
  exact .refl rows

section

variable (h : SameRows rows rows')
include h

theorem SameRows.trans {rows'' : Rows Value}
    (h' : SameRows rows' rows'') : SameRows rows rows'' :=
  fun k hk => (h' k hk).trans (h k hk)

theorem SameRows.inode (id : InodeID) :
    rows'.inode id = rows.inode id := by
  unfold Rows.inode
  rw [h _ fun _ => Key.noConfusion]

theorem SameRows.bucketRoot (id : InodeID) :
    rows'.bucketRoot id = rows.bucketRoot id := by
  unfold Rows.bucketRoot
  rw [h.inode]

theorem SameRows.bucketStats (r : InodeID) :
    rows'.bucketStats r = rows.bucketStats r := by
  unfold Rows.bucketStats
  rw [h _ fun _ => Key.noConfusion]

end

theorem ns_ne {p q : InodeID} {n m : List Char} (h : (q, m) ≠ (p, n)) : Key.ns q m ≠ .ns p n := by
  intro heq
  injection heq with hq hm
  exact h (by rw [hq, hm])

theorem inode_ne {x c : InodeID} (h : x ≠ c) : Key.inode x ≠ .inode c := by
  intro heq
  injection heq with hx
  exact h hx

theorem Op.attempt_eq {α : Type} {m : Op α} {l' : Leader} {r : Except ServiceErr α}
    (h : m l = (r, l')) : m.attempt l = (.ok r, l') := by
  unfold Op.attempt
  rw [h]

theorem nextInodeID_ok (cfg : Config) (mint : Mint) (l : Leader) :
    ∃ l', nextInodeID cfg mint l = (.ok mint.id, l') ∧ SameRows l.rows l'.rows := by
  unfold nextInodeID
  split_ifs
  · obtain ⟨l', hdelete, hrows⟩ : ∃ l', deleteKey cfg (.freeList mint.id) l = (.ok (), l') ∧
        l'.rows = l.rows.erase (.freeList mint.id) := logged_of_accepts rfl
    refine ⟨l', ?_, fun k hk => ?_⟩
    · rw [bind_ok (attempt_eq hdelete)]
      rfl
    · rw [hrows, Finmap.lookup_erase_ne (hk mint.id)]
  · exact ⟨l, rfl, .refl _⟩

theorem releaseInodeID_ok (cfg : Config) (full : Bool) (id : InodeID) (l : Leader) :
    ∃ l', releaseInodeID cfg full id l = (.ok (), l') ∧ SameRows l.rows l'.rows := by
  unfold releaseInodeID
  split_ifs
  · obtain ⟨l', hput, hrows⟩ : ∃ l', Op.put cfg (.freeList id) (.inodeID id) l = (.ok (), l') ∧
        l'.rows = l.rows.insert (.freeList id) (.inodeID id) := logged_of_accepts rfl
    refine ⟨l', ?_, fun k hk => ?_⟩
    · rw [bind_ok (attempt_eq hput)]
      rfl
    · rw [hrows, Finmap.lookup_insert_of_ne _ (hk id)]
  · exact ⟨l, rfl, .refl _⟩

/-! ### Conditional batches -/

theorem forall_mem_pair {α : Type} {P : α → Prop} {a b : α} (ha : P a) (hb : P b) :
    ∀ x ∈ [a, b], P x :=
  forall_mem_cons.mpr ⟨ha, forall_mem_singleton.mpr hb⟩

theorem ConditionalBatch.nodup_of_canonical (h : c.canonical cfg.codec = true) :
    (c.mutations.map BatchOp.key).Nodup := by
  unfold ConditionalBatch.canonical at h
  simp only [Bool.and_eq_true, decide_eq_true_eq] at h
  exact h.1.1.2

/-- A conditional batch of the namespace: in any term, and without replacements. -/
structure ConditionalBatch.Plain (c : ConditionalBatch Value) : Prop where
  term : c.expectedRaftTerm = 0
  replaces : c.prefixReplacements = []

theorem ConditionalBatch.Plain.changes (h : c.Plain) (term : UInt64) :
    Fsm.changes ⟨term, some (.conditional c)⟩ = c.mutations.map .op := by
  show c.mutations.map Change.op ++ c.prefixReplacements.flatMap _ = _
  rw [h.replaces, flatMap_nil, append_nil]

/-- The batch is taken from these rows. -/
def ConditionalBatch.Takes (cfg : Config) (c : ConditionalBatch Value) (rows : Rows Value) : Prop :=
  c.canonical cfg.codec = true ∧ Fsm.preconditionsHold rows c = true

theorem judge_plain (h : c.Plain) (l : Leader) :
    Fsm.judge cfg.codec l.rows ⟨l.term, some (.conditional c)⟩ =
      if ¬ c.canonical cfg.codec = true then .error .invalid
      else if Fsm.preconditionsHold l.rows c = true then .ok () else .error .conditionalConflict :=
  if_neg fun hne => hne.1 h.term

theorem applyConditional_ok (hplain : c.Plain) (h : c.Takes cfg l.rows) (e : ServiceErr) :
    ∃ l', applyConditional cfg c e l = (.ok (), l') ∧ l'.rows = applyOps c.mutations l.rows := by
  have hjudge : Fsm.judge cfg.codec l.rows ⟨l.term, some (.conditional c)⟩ = .ok () := by
    rw [judge_plain hplain, if_neg (not_not_intro h.1), if_pos h.2]
  obtain ⟨l', hl', hrows⟩ := logged_of_accepts hjudge
  have hpropose : propose cfg (.conditional c) l = (.ok (), l') :=
    (congrFun (if_pos h.1) l).trans hl'
  refine ⟨l', ?_, ?_⟩
  · unfold applyConditional
    rw [bind_ok (attempt_eq hpropose)]
    rfl
  · rw [hrows, hplain.changes]
    rfl

theorem applyConditional_refused (hplain : c.Plain) (h : ¬ c.Takes cfg l.rows) (e : ServiceErr) :
    ∃ err l', applyConditional cfg c e l = (.error err, l') ∧ l'.rows = l.rows := by
  by_cases hcanon : c.canonical cfg.codec = true
  · have hjudge : Fsm.judge cfg.codec l.rows ⟨l.term, some (.conditional c)⟩ =
        .error .conditionalConflict := by
      rw [judge_plain hplain, if_neg (not_not_intro hcanon), if_neg fun hpre => h ⟨hcanon, hpre⟩]
    obtain ⟨l', hl', hrows⟩ := logged_of_refuses hjudge
    have hpropose : propose cfg (.conditional c) l = (.error (.fsm .conditionalConflict), l') :=
      (congrFun (if_pos hcanon) l).trans hl'
    refine ⟨e, l', ?_, hrows⟩
    unfold applyConditional
    rw [bind_ok (attempt_eq hpropose)]
    rfl
  · have hpropose : propose cfg (.conditional c) l = (.error (.fsm .invalid), l) :=
      congrFun (if_neg hcanon) l
    refine ⟨.fsm .invalid, l, ?_, rfl⟩
    unfold applyConditional
    rw [bind_ok (attempt_eq hpropose)]
    rfl

/-- Operations with each key once were applied; beside them only the free list changed. -/
structure Applied (ops : List (BatchOp Value)) (rows rows' : Rows Value) : Prop where
  nodup : (ops.map BatchOp.key).Nodup
  same : SameRows (applyOps ops rows) rows'

theorem Applied.written (h : Applied ops rows rows') (hop : op ∈ ops) (hv : Visible op.key) :
    rows'.lookup op.key = op.value := by
  rw [h.same _ hv]
  exact lookup_applyOps_of_mem h.nodup hop rows

theorem Applied.others {k : Key} (h : Applied ops rows rows') (hv : Visible k)
    (hne : ∀ op ∈ ops, op.key ≠ k) : rows'.lookup k = rows.lookup k := by
  rw [h.same k hv]
  exact lookup_applyOps_of_notMem hne rows

/-- Operations without counters leave the counters alone. -/
theorem Applied.bucketStats (h : Applied ops rows rows') (hnone : ∀ op ∈ ops, ¬ IsStats op.key)
    (r : InodeID) : rows'.bucketStats r = rows.bucketStats r :=
  bucketStats_of_lookup (h.others (fun _ => nofun) fun op hop hkey => hnone op hop ⟨r, hkey⟩)

/-! ### `Unlink` -/

theorem entry_eq_ok {entry : DirEntry} :
    rows.entry p n = .ok (some entry) ↔ rows.lookup (.ns p n) = some (.entry entry) := by
  unfold Rows.entry
  constructor
  · intro h
    split at h
    · cases h
    · rename_i e heq
      obtain rfl := Option.some.inj (Except.ok.inj h)
      exact heq
    · cases h
  · intro h
    rw [h]

theorem inode_eq_ok {row : InodeRow} : rows.inode id = .ok (some row) ↔ rows.HasInode id row := by
  refine ⟨fun h => ?_, inode_of_lookup⟩
  unfold Rows.inode at h
  split at h
  · cases h
  · rename_i r heq
    obtain rfl := Option.some.inj (Except.ok.inj h)
    exact heq
  · cases h

theorem inode_eq_none : rows.inode id = .ok none ↔ rows.lookup (.inode id) = none := by
  unfold Rows.inode
  constructor
  · intro h
    split at h
    · rename_i heq
      exact heq
    · cases h
    · cases h
  · intro h
    rw [h]

/-- The row with a link less; none, if it was the last one. -/
def InodeRow.unlinked (row : InodeRow) : Option InodeRow :=
  if row.asV2.nlink - 1 = 0 then none else some (row.withNLink (row.asV2.nlink - 1))

/-- The operations of `Unlink`, by what is known of the inode. -/
def unlinkOps (cfg : Config) (rows : Rows Value) (p : InodeID) (n : List Char) (id : InodeID) :
    Option InodeRow → List (BatchOp Value)
  | none => [.delete (.ns p n)]
  | some row =>
    match row.unlinked with
    | none =>
      rows.bucketStatsOp cfg row.asV2.bucketRoot (-row.asV2.size) (-1) ++
        [.delete (.ns p n), .delete (.inode id)]
    | some row' => [.set (.inode id) (.inode row'), .delete (.ns p n)]

/-- What `Unlink` reads, and the batch it makes of that. -/
structure UnlinkReads (cfg : Config) (rows : Rows Value) (p : InodeID) (n : List Char)
    (batch : ConditionalBatch Value) (d : DirEntry) (row : Option InodeRow) : Prop where
  named : rows.lookup (.ns p n) = some (.entry d)
  file : d.type ≠ .directory
  found : rows.inode d.inodeID = .ok row
  preconditions : batch.preconditions = [⟨.ns p n, some (.entry d)⟩]
  plain : batch.Plain
  mutations : batch.mutations = unlinkOps cfg rows p n d.inodeID row

theorem unlinkBatch_eq_ok {gone : Option InodeID}
    (h : unlinkBatch cfg rows p n = .ok (batch, gone)) :
    ∃ d row, UnlinkReads cfg rows p n batch d row := by
  unfold unlinkBatch at h
  obtain ⟨named, hnamed, h⟩ := bind_eq_ok.mp h
  cases named with
  | none => cases h
  | some d =>
    obtain ⟨hfile, h⟩ := ite_error_eq_ok.mp h
    obtain ⟨row, hrow, h⟩ := bind_eq_ok.mp h
    suffices hmade : batch.preconditions = [⟨.ns p n, some (.entry d)⟩] ∧ batch.Plain ∧
        batch.mutations = unlinkOps cfg rows p n d.inodeID row from
      ⟨d, row, entry_eq_ok.mp hnamed, hfile, hrow, hmade.1, hmade.2.1, hmade.2.2⟩
    cases row with
    | none =>
      cases h
      exact ⟨rfl, ⟨rfl, rfl⟩, rfl⟩
    | some row =>
      by_cases hlast : row.asV2.nlink - 1 = 0
      · have h := (if_pos hlast).symm.trans h
        cases h
        refine ⟨rfl, ⟨rfl, rfl⟩, ?_⟩
        unfold unlinkOps InodeRow.unlinked
        simp only [if_pos hlast]
      · have h := (if_neg hlast).symm.trans h
        cases h
        refine ⟨rfl, ⟨rfl, rfl⟩, ?_⟩
        unfold unlinkOps InodeRow.unlinked
        simp only [if_neg hlast]

theorem UnlinkReads.preconditionsHold (h : UnlinkReads cfg rows p n batch d row) :
    Fsm.preconditionsHold rows batch = true := by
  unfold Fsm.preconditionsHold
  rw [h.preconditions]
  simp [h.named]

/-- The counters of a bucket once a link of an inode is gone. -/
def unlinkStats (cfg : Config) (rows : Rows Value) (r : InodeID) : Option InodeRow → Int × Int
  | none => rows.bucketStats r
  | some row =>
    match row.unlinked with
    | none => statsAfter cfg rows row.asV2.bucketRoot (-row.asV2.size) (-1) r
    | some _ => rows.bucketStats r

/-- The inode lost a link, or went with the last one. -/
structure Unlinked (cfg : Config) (rows rows' : Rows Value) (p : InodeID) (n : List Char)
    (d : DirEntry) (row : Option InodeRow) : Prop where
  named : rows.lookup (.ns p n) = some (.entry d)
  file : d.type ≠ .directory
  found : rows.inode d.inodeID = .ok row
  gone : rows'.lookup (.ns p n) = none
  inode : rows'.lookup (.inode d.inodeID) = (row.bind InodeRow.unlinked).map .inode
  others : ∀ k, k ≠ .ns p n → k ≠ .inode d.inodeID → ¬ IsStats k → Visible k →
    rows'.lookup k = rows.lookup k
  stats : ∀ r, rows'.bucketStats r = unlinkStats cfg rows r row

theorem UnlinkReads.unlinked (h : UnlinkReads cfg rows p n batch d row)
    (happ : Applied batch.mutations rows rows') : Unlinked cfg rows rows' p n d row := by
  have hmuts := h.mutations
  suffices hrows : rows'.lookup (.ns p n) = none ∧
      rows'.lookup (.inode d.inodeID) = (row.bind InodeRow.unlinked).map .inode ∧
      (∀ k, k ≠ .ns p n → k ≠ .inode d.inodeID → ¬ IsStats k → Visible k →
        rows'.lookup k = rows.lookup k) ∧
      ∀ r, rows'.bucketStats r = unlinkStats cfg rows r row from
    ⟨h.named, h.file, h.found, hrows.1, hrows.2.1, hrows.2.2.1, hrows.2.2.2⟩
  cases row with
  | none =>
    rw [hmuts] at happ
    refine ⟨happ.written (.head _) fun _ => nofun, ?_, fun k hk _ _ hv => ?_, ?_⟩
    · rw [happ.others (k := .inode d.inodeID) (fun _ => nofun) (forall_mem_singleton.mpr nofun)]
      exact inode_eq_none.mp h.found
    · exact happ.others hv (forall_mem_singleton.mpr hk.symm)
    · exact happ.bucketStats (forall_mem_singleton.mpr (not_isStats_ns p n))
  | some row =>
    cases hrow : row.unlinked with
    | none =>
      simp only [unlinkOps, hrow] at hmuts
      simp only [unlinkStats, hrow, Option.bind_some]
      rw [hmuts] at happ
      refine ⟨happ.written (mem_append_right _ (.head _)) fun _ => nofun,
        happ.written (mem_append_right _ (.tail _ (.head _))) fun _ => nofun,
        fun k hk hki hks hv => happ.others hv (forall_mem_append.mpr ⟨?_, ?_⟩), fun r => ?_⟩
      · intro op hop
        rw [key_of_statsOp hop]
        exact fun heq => hks ⟨_, heq.symm⟩
      · exact forall_mem_pair hk.symm hki.symm
      · rw [happ.same.bucketStats]
        refine bucketStats_applyOps happ.nodup (fun op => mem_append_left _)
          (forall_mem_append.mpr ⟨fun op hop _ => hop, ?_⟩) r
        exact forall_mem_pair (fun hstats => absurd hstats (not_isStats_ns p n))
          fun hstats => absurd hstats (not_isStats_inode _)
    | some row' =>
      simp only [unlinkOps, hrow] at hmuts
      simp only [unlinkStats, hrow, Option.bind_some]
      rw [hmuts] at happ
      refine ⟨happ.written (.tail _ (.head _)) fun _ => nofun,
        happ.written (.head _) fun _ => nofun, fun k hk hki _ hv => happ.others hv ?_,
        happ.bucketStats ?_⟩
      · exact forall_mem_pair hki.symm hk.symm
      · exact forall_mem_pair (not_isStats_inode _) (not_isStats_ns p n)

/-- `Unlink` has a batch, and the log takes it. -/
def Unlinkable (cfg : Config) (rows : Rows Value) (p : InodeID) (n : List Char) : Prop :=
  ∃ batch gone, unlinkBatch cfg rows p n = .ok (batch, gone) ∧ batch.canonical cfg.codec = true

/-- What follows once the batch of `Unlink` is applied. -/
def releaseGone (cfg : Config) (full : Bool) : Option InodeID → Op Unit
  | none => pure ()
  | some id => releaseInodeID cfg full id

theorem releaseGone_ok (cfg : Config) (full : Bool) (gone : Option InodeID) (l : Leader) :
    ∃ l', releaseGone cfg full gone l = (.ok (), l') ∧ SameRows l.rows l'.rows := by
  cases gone with
  | none => exact ⟨l, rfl, SameRows.refl _⟩
  | some id => exact releaseInodeID_ok cfg full id l

/-- A batch is read and applied, and the rest of the operation follows. -/
def applyRead {β : Type} (cfg : Config) (read : Except ServiceErr (ConditionalBatch Value × β))
    (rest : β → Op Unit) : Op Unit :=
  Op.lift read >>= fun b => applyConditional cfg b.1 .entryNotFound >>= fun _ => rest b.2

/-- The batch is taken, or refused; the rest changes no more than the free list. -/
theorem applyRead_cases {β : Type} {read : Except ServiceErr (ConditionalBatch Value × β)}
    {rest : β → Op Unit} {b : β} (hread : read = .ok (batch, b)) (hplain : batch.Plain)
    (hrest : ∀ l, ∃ l', rest b l = (.ok (), l') ∧ SameRows l.rows l'.rows) :
    (batch.Takes cfg l.rows ∧ ∃ l', applyRead cfg read rest l = (.ok (), l') ∧
        Applied batch.mutations l.rows l'.rows) ∨
      ¬ batch.Takes cfg l.rows ∧ ∃ e l', applyRead cfg read rest l = (.error e, l') ∧
        l'.rows = l.rows := by
  have happly : applyRead cfg read rest l =
      (applyConditional cfg batch .entryNotFound >>= fun _ => rest b) l := by
    rw [hread]
    rfl
  rw [happly]
  by_cases htakes : batch.Takes cfg l.rows
  · obtain ⟨l1, hl1, hrows1⟩ := applyConditional_ok hplain htakes .entryNotFound
    obtain ⟨l', hl', hsame⟩ := hrest l1
    rw [bind_ok hl1]
    exact .inl ⟨htakes, l', hl', nodup_of_canonical htakes.1, hrows1 ▸ hsame⟩
  · obtain ⟨e, l', hl', hrows⟩ := applyConditional_refused hplain htakes .entryNotFound
    rw [bind_error hl']
    exact .inr ⟨htakes, e, l', rfl, hrows⟩

theorem unlink_eq (cfg : Config) (p : InodeID) (n : List Char) (full : Bool) (l : Leader) :
    Op.unlink cfg p n full l =
      applyRead cfg (unlinkBatch cfg l.rows p n) (releaseGone cfg full) l := rfl

theorem unlink_ok (h : Unlinkable cfg l.rows p n) (full : Bool) :
    ∃ l' d row, Op.unlink cfg p n full l = (.ok (), l') ∧
      Unlinked cfg l.rows l'.rows p n d row := by
  obtain ⟨batch, gone, hbatch, hcanon⟩ := h
  obtain ⟨d, row, hreads⟩ := unlinkBatch_eq_ok hbatch
  rcases applyRead_cases hbatch hreads.plain (releaseGone_ok cfg full gone) with
    ⟨-, l', hl', happ⟩ | ⟨hnot, -⟩
  · exact ⟨l', d, row, hl', hreads.unlinked happ⟩
  · exact absurd ⟨hcanon, hreads.preconditionsHold⟩ hnot

theorem unlink_refused (h : ¬ Unlinkable cfg l.rows p n) (full : Bool) :
    ∃ e l', Op.unlink cfg p n full l = (.error e, l') ∧ l'.rows = l.rows := by
  cases hbatch : unlinkBatch cfg l.rows p n with
  | error e =>
    refine ⟨e, l, ?_, rfl⟩
    rw [unlink_eq, hbatch]
    rfl
  | ok b =>
    obtain ⟨d, row, hreads⟩ := unlinkBatch_eq_ok hbatch
    rcases applyRead_cases hbatch hreads.plain (releaseGone_ok cfg full b.2) with
      ⟨htakes, -⟩ | ⟨-, hfail⟩
    · exact absurd ⟨b.1, b.2, hbatch, htakes.1⟩ h
    · exact hfail

/-! ### Creates -/

/-- A create changes the free list alone, or its batch is applied to rows that differ by that. -/
theorem create_effect {batch : Rows Value → InodeID → ConditionalBatch Value}
    {E : InodeID → Rows Value → Prop} (hplain : ∀ rows id, (batch rows id).Plain)
    (hmade : ∀ id rows, SameRows l.rows rows → (batch rows id).Takes cfg rows →
      E id (applyOps (batch rows id).mutations rows)) (mint retry : Mint) :
    SameRows l.rows (applyNamespaceCreate cfg mint retry batch l).2.rows ∨
      ∃ id, E id (applyNamespaceCreate cfg mint retry batch l).2.rows ∧
        (id = mint.id ∨ id = retry.id) := by
  obtain ⟨l1, hl1, hsame1⟩ := nextInodeID_ok cfg mint l
  have hread1 : Op.rows l1 = (.ok l1.rows, l1) := rfl
  unfold applyNamespaceCreate
  rw [bind_ok hl1, bind_ok hread1]
  by_cases htakes : (batch l1.rows mint.id).Takes cfg l1.rows
  · obtain ⟨l', hl', hrows⟩ := applyConditional_ok (hplain _ _) htakes .entryExists
    rw [bind_ok (attempt_eq hl')]
    have hE : E mint.id l'.rows := hrows ▸ hmade _ _ hsame1 htakes
    exact .inr ⟨mint.id, hE, .inl rfl⟩
  obtain ⟨e, l2, hl2, hrows2⟩ := applyConditional_refused (hplain _ _) htakes .entryExists
  rw [bind_ok (attempt_eq hl2)]
  have hsame2 : SameRows l.rows l2.rows := hsame1.trans (SameRows.of_eq hrows2)
  by_cases he : e = .entryExists
  · -- the second attempt, with another number
    subst he
    obtain ⟨l3, hl3, hsame3⟩ := nextInodeID_ok cfg retry l2
    have hread3 : Op.rows l3 = (.ok l3.rows, l3) := rfl
    have hsame : SameRows l.rows l3.rows := hsame2.trans hsame3
    dsimp only
    rw [bind_ok hl3, bind_ok hread3]
    by_cases htakes' : (batch l3.rows retry.id).Takes cfg l3.rows
    · obtain ⟨l', hl', hrows⟩ := applyConditional_ok (hplain _ _) htakes' .entryExists
      rw [bind_ok hl']
      have hE : E retry.id l'.rows := hrows ▸ hmade _ _ hsame htakes'
      exact .inr ⟨retry.id, hE, .inr rfl⟩
    · obtain ⟨e, l', hl', hrows⟩ := applyConditional_refused (hplain _ _) htakes' .entryExists
      rw [bind_error hl']
      exact .inl (hsame.trans (.of_eq hrows))
  · refine .inl ?_
    cases e with
    | entryExists => exact absurd rfl he
    | _ => exact hsame2

theorem createPreconditions_hold (hsame : SameRows rows rows1)
    (hpre : c.preconditions = createPreconditions parent name id)
    (h : Fsm.preconditionsHold rows1 c = true) :
    rows.lookup (.ns parent name) = none ∧ rows.lookup (.inode id) = none := by
  unfold Fsm.preconditionsHold at h
  rw [hpre] at h
  simp only [createPreconditions, all_cons, all_nil, Bool.and_true, Bool.and_eq_true,
    decide_eq_true_eq] at h
  rw [← hsame _ fun _ => Key.noConfusion, ← hsame (.inode id) fun _ => Key.noConfusion]
  exact h

/-- A file, or what is one to its directory, came to be under a free name and number. -/
structure FileCreated (cfg : Config) (rows rows' : Rows Value) (type : FileType)
    (statBytes : Int) (bucketRoot parent : InodeID) (name : List Char) (now : Int)
    (id : InodeID) : Prop where
  name_free : rows.lookup (.ns parent name) = none
  id_free : rows.lookup (.inode id) = none
  entry : rows'.lookup (.ns parent name) = some (.entry ⟨id, type, name⟩)
  row : rows'.lookup (.inode id) =
    some (.inode (.v1 ⟨id, type, 0, 1, bucketRoot, now, []⟩))
  others : ∀ k, k ≠ .ns parent name → k ≠ .inode id → ¬ IsStats k → Visible k →
    rows'.lookup k = rows.lookup k
  stats : ∀ r, rows'.bucketStats r = statsAfter cfg rows bucketRoot statBytes 1 r

theorem SameRows.statsAfter (h : SameRows rows rows') (root : InodeID)
    (deltaBytes deltaObjects : Int) (r : InodeID) :
    statsAfter cfg rows' root deltaBytes deltaObjects r =
      statsAfter cfg rows root deltaBytes deltaObjects r := by
  unfold Metadata.statsAfter
  rw [h.bucketStats, h.bucketStats]

theorem createFileBatch_takes (hsame : SameRows rows rows1) {type : FileType} {statBytes : Int}
    {bucketRoot : InodeID}
    (h : (createFileBatch cfg rows1 type statBytes bucketRoot parent name now id).Takes cfg rows1) :
    FileCreated cfg rows
      (applyOps (createFileBatch cfg rows1 type statBytes bucketRoot parent name now id).mutations
        rows1) type statBytes bucketRoot parent name now id := by
  have hnodup := nodup_of_canonical h.1
  have happ : Applied _ rows1 _ := ⟨hnodup, .refl _⟩
  obtain ⟨hname, hid⟩ := createPreconditions_hold hsame rfl h.2
  refine ⟨hname, hid, happ.written (mem_append_left _ (.tail _ (.head _))) fun _ => nofun,
    happ.written (mem_append_left _ (.head _)) fun _ => nofun,
    fun k hk hki hks hv => (happ.others hv ?_).trans (hsame k hv), fun r => ?_⟩
  · refine forall_mem_append.mpr ⟨?_, fun op hop => ?_⟩
    · exact forall_mem_pair hki.symm hk.symm
    · rw [key_of_statsOp hop]
      exact fun heq => hks ⟨_, heq.symm⟩
  · rw [← hsame.statsAfter]
    refine bucketStats_applyOps hnodup (fun op => mem_append_right _)
      (forall_mem_append.mpr ⟨?_, fun op hop _ => hop⟩) r
    exact forall_mem_pair (fun hstats => absurd hstats (not_isStats_inode _))
      fun hstats => absurd hstats (not_isStats_ns _ _)

/-! ### Directories -/

/-- A directory came to be under a free name and number. -/
structure DirCreated (rows rows' : Rows Value) (parent : InodeID) (name : List Char) (now : Int)
    (id : InodeID) : Prop where
  name_free : rows.lookup (.ns parent name) = none
  id_free : rows.lookup (.inode id) = none
  entry : rows'.lookup (.ns parent name) = some (.entry ⟨id, .directory, name⟩)
  row : rows'.lookup (.inode id) =
    some (.inode (.v1 ⟨id, .directory, 0, 2, rows.bucketRoot parent, now, []⟩))
  above : ∀ row, rows.inode parent = .ok (some row) → rows'.lookup (.inode parent) =
    some (.inode (.v1 { row.asV1 with nlink := row.asV1.nlink + 1 }))
  others : ∀ k, k ≠ .ns parent name → k ≠ .inode id →
    (k = .inode parent → ∀ row, rows.inode parent ≠ .ok (some row)) → Visible k →
    rows'.lookup k = rows.lookup k

/-- The operations of `MkDir` on the row of the parent. -/
def parentOps (parent : InodeID) (nlink : UInt32 → UInt32) :
    Except ServiceErr (Option InodeRow) → List (BatchOp Value)
  | .ok (some row) =>
    [.set (.inode parent) (.inode (.v1 { row.asV1 with nlink := nlink row.asV1.nlink }))]
  | _ => []

theorem mkDirBatch_mutations (rows : Rows Value) (parent : InodeID) (name : List Char) (now : Int)
    (id : InodeID) : (mkDirBatch rows parent name now id).mutations =
      [.set (.inode id) (.inode (.v1 ⟨id, .directory, 0, 2, rows.bucketRoot parent, now, []⟩)),
        .set (.ns parent name) (.entry ⟨id, .directory, name⟩)] ++
        parentOps parent (· + 1) (rows.inode parent) := by
  unfold mkDirBatch Rows.bucketRoot
  cases rows.inode parent with
  | error e => rfl
  | ok found =>
    cases found with
    | none | some row => rfl

theorem mem_parentOps {nlink : UInt32 → UInt32} {found : Except ServiceErr (Option InodeRow)}
    (h : op ∈ parentOps parent nlink found) :
    op.key = .inode parent ∧ ∃ row, found = .ok (some row) := by
  unfold parentOps at h
  split at h
  · rename_i row
    rw [mem_singleton.mp h]
    exact ⟨rfl, row, rfl⟩
  · exact absurd h not_mem_nil

theorem parentOps_of_row {nlink : UInt32 → UInt32} {found : Except ServiceErr (Option InodeRow)}
    {row : InodeRow} (h : found = .ok (some row)) :
    .set (.inode parent) (.inode (.v1 { row.asV1 with nlink := nlink row.asV1.nlink })) ∈
      parentOps parent nlink found := by
  rw [h]
  exact .head _

theorem mkDirBatch_takes (hsame : SameRows rows rows1)
    (h : (mkDirBatch rows1 parent name now id).Takes cfg rows1) :
    DirCreated rows (applyOps (mkDirBatch rows1 parent name now id).mutations rows1) parent name
      now id := by
  have hnodup := nodup_of_canonical h.1
  obtain ⟨hname, hid⟩ := createPreconditions_hold hsame rfl h.2
  rw [mkDirBatch_mutations] at hnodup ⊢
  have happ : Applied _ rows1 _ := ⟨hnodup, .refl _⟩
  refine ⟨hname, hid, happ.written (mem_append_left _ (.tail _ (.head _))) fun _ => nofun, ?_,
    fun row hrow => ?_, fun k hk hki hkp hv => (happ.others hv ?_).trans (hsame k hv)⟩
  · rw [← hsame.bucketRoot]
    exact happ.written (mem_append_left _ (.head _)) fun _ => nofun
  · rw [← hsame.inode] at hrow
    exact happ.written (mem_append_right _ (parentOps_of_row hrow)) fun _ => nofun
  · refine forall_mem_append.mpr ⟨?_, fun op hop heq => ?_⟩
    · exact forall_mem_pair hki.symm hk.symm
    · obtain ⟨hkey, row, hrow⟩ := mem_parentOps hop
      rw [hsame.inode] at hrow
      exact hkp (heq ▸ hkey) row hrow

/-- A count of links that does not go below zero. -/
def nlinkPred (nlink : UInt32) : UInt32 := if nlink > 0 then nlink - 1 else nlink

/-- A directory that is empty went with its name. -/
structure DirRemoved (rows rows' : Rows Value) (parent : InodeID) (name : List Char)
    (d : DirEntry) : Prop where
  named : rows.lookup (.ns parent name) = some (.entry d)
  directory : d.type = .directory
  childless : rows.hasChildren d.inodeID = false
  gone : rows'.lookup (.ns parent name) = none
  inode : rows'.lookup (.inode d.inodeID) = none
  above : ∀ row, rows.inode parent = .ok (some row) → rows'.lookup (.inode parent) =
    some (.inode (.v1 { row.asV1 with nlink := nlinkPred row.asV1.nlink }))
  others : ∀ k, k ≠ .ns parent name → k ≠ .inode d.inodeID →
    (k = .inode parent → ∀ row, rows.inode parent ≠ .ok (some row)) → Visible k →
    rows'.lookup k = rows.lookup k

theorem no_children (h : rows.hasChildren id = false) (m : List Char) :
    rows.lookup (.ns id m) = none := by
  unfold Rows.hasChildren at h
  have hnone := of_decide_eq_false h
  rw [Finmap.lookup_eq_none]
  intro hmem
  exact hnone ⟨.ns id m, Finmap.mem_keys.mpr hmem, by simp [Key.isChildOf]⟩

theorem rmDirBatch_eq_ok (h : rmDirBatch rows parent name = .ok (batch, id)) :
    ∃ d, rows.lookup (.ns parent name) = some (.entry d) ∧ d.type = .directory ∧
      rows.hasChildren d.inodeID = false ∧ batch.Plain ∧
      batch.mutations = parentOps parent nlinkPred (rows.inode parent) ++
        [.delete (.inode d.inodeID), .delete (.ns parent name)] := by
  unfold rmDirBatch at h
  obtain ⟨named, hnamed, h⟩ := bind_eq_ok.mp h
  cases named with
  | none => cases h
  | some d =>
    obtain ⟨htype, h⟩ := ite_error_eq_ok.mp h
    obtain ⟨hchildren, h⟩ := ite_error_eq_ok.mp h
    refine ⟨d, entry_eq_ok.mp hnamed, not_not.mp htype, Bool.eq_false_iff.mpr hchildren, ?_⟩
    cases h
    refine ⟨⟨rfl, rfl⟩, ?_⟩
    unfold parentOps
    cases rows.inode parent with
    | error e => rfl
    | ok found =>
      cases found with
      | none | some row => rfl

theorem rmDir_effect (cfg : Config) (parent : InodeID) (name : List Char) (full : Bool)
    (l : Leader) : SameRows l.rows (rmDir cfg parent name full l).2.rows ∨
      ∃ d, DirRemoved l.rows (rmDir cfg parent name full l).2.rows parent name d := by
  have hrmDir : rmDir cfg parent name full l =
      applyRead cfg (rmDirBatch l.rows parent name) (releaseInodeID cfg full) l := rfl
  rw [hrmDir]
  cases hbatch : rmDirBatch l.rows parent name with
  | error e => exact .inl (.refl _)
  | ok b =>
    obtain ⟨d, hnamed, htype, hchildren, hplain, hmuts⟩ := rmDirBatch_eq_ok hbatch
    rcases applyRead_cases rfl hplain (releaseInodeID_ok cfg full b.2) with
      ⟨-, l', hl', happ⟩ | ⟨-, e, l', hl', hrows⟩
    · rw [hl']
      rw [hmuts] at happ
      refine .inr ⟨d, hnamed, htype, hchildren,
        happ.written (mem_append_right _ (.tail _ (.head _))) fun _ => nofun,
        happ.written (mem_append_right _ (.head _)) fun _ => nofun, fun row hrow =>
          happ.written (mem_append_left _ (parentOps_of_row hrow)) fun _ => nofun,
        fun k hk hki hkp hv => happ.others hv (forall_mem_append.mpr ⟨?_, ?_⟩)⟩
      · intro op hop heq
        obtain ⟨hkey, row, hrow⟩ := mem_parentOps hop
        exact hkp (heq ▸ hkey) row hrow
      · exact forall_mem_pair hki.symm hk.symm
    · rw [hl']
      exact .inl (.of_eq hrows)

/-! ### `Link` -/

/-- The row of a file that got a link. -/
def InodeRow.linked (row : InodeRow) (now : Int) : InodeRow :=
  match row.withNLink (row.asV2.nlink + 1) with
  | .v1 m => .v1 { m with ctime := now }
  | .v2 m => .v2 { m with ctime := now }

/-- A file got another name. -/
structure FileLinked (rows rows' : Rows Value) (parent : InodeID) (name : List Char)
    (target : InodeID) (now : Int) (row : InodeRow) : Prop where
  name_free : rows.lookup (.ns parent name) = none
  found : rows.lookup (.inode target) = some (.inode row)
  file : row.asV2.type ≠ .directory
  entry : rows'.lookup (.ns parent name) = some (.entry ⟨target, row.asV2.type, name⟩)
  inode : rows'.lookup (.inode target) = some (.inode (row.linked now))
  others : ∀ k, k ≠ .ns parent name → k ≠ .inode target → rows'.lookup k = rows.lookup k

theorem linkBatch_eq_ok {target : InodeID} (h : linkBatch rows parent name target now = .ok batch) :
    ∃ row, rows.HasInode target row ∧ row.asV2.type ≠ .directory ∧
      batch.Plain ∧ batch.preconditions = [⟨.ns parent name, none⟩] ∧
      batch.mutations = [.set (.inode target) (.inode (row.linked now)),
        .set (.ns parent name) (.entry ⟨target, row.asV2.type, name⟩)] := by
  unfold linkBatch at h
  obtain ⟨found, hfound, h⟩ := bind_eq_ok.mp h
  cases found with
  | none => cases h
  | some row =>
    obtain ⟨hfile, h⟩ := ite_error_eq_ok.mp h
    refine ⟨row, inode_eq_ok.mp hfound, hfile, ?_⟩
    cases h
    exact ⟨⟨rfl, rfl⟩, rfl, rfl⟩

theorem link_effect (cfg : Config) (parent : InodeID) (name : List Char) (target : InodeID)
    (now : Int) (l : Leader) : SameRows l.rows (Op.link cfg parent name target now l).2.rows ∨
      ∃ row, FileLinked l.rows (Op.link cfg parent name target now l).2.rows parent name target now
        row := by
  have hlink : Op.link cfg parent name target now l =
      (Op.lift (linkBatch l.rows parent name target now) >>= fun b =>
        applyConditional cfg b .entryExists) l := rfl
  rw [hlink]
  cases hbatch : linkBatch l.rows parent name target now with
  | error e => exact .inl (.refl _)
  | ok batch =>
    obtain ⟨row, hfound, hfile, hplain, hpre, hmuts⟩ := linkBatch_eq_ok hbatch
    show SameRows l.rows (applyConditional cfg batch .entryExists l).2.rows ∨
      ∃ row, FileLinked l.rows (applyConditional cfg batch .entryExists l).2.rows _ _ _ _ row
    by_cases htakes : batch.Takes cfg l.rows
    · obtain ⟨l', hl', hrows⟩ := applyConditional_ok hplain htakes .entryExists
      have happ : Applied batch.mutations l.rows l'.rows :=
        ⟨nodup_of_canonical htakes.1, .of_eq hrows⟩
      have hfree : l.rows.lookup (.ns parent name) = none := by
        have hhold := htakes.2
        unfold Fsm.preconditionsHold at hhold
        rw [hpre] at hhold
        simpa using hhold
      rw [hl']
      rw [hmuts] at happ hrows
      refine .inr ⟨row, hfree, hfound, hfile, happ.written (.tail _ (.head _)) fun _ => nofun,
        happ.written (.head _) fun _ => nofun, fun k hk hki => ?_⟩
      rw [hrows]
      refine lookup_applyOps_of_notMem ?_ l.rows
      exact forall_mem_pair hki.symm hk.symm
    · obtain ⟨e, l', hl', hrows⟩ := applyConditional_refused hplain htakes .entryExists
      rw [hl']
      exact .inl (.of_eq hrows)

end Nufs.Metadata
