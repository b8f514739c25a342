/-
What a purge has checked when it deletes a chunk.

A purge reads chunk, tombstone and catalogue one after the other and compares all three
when its entry is applied.  Chunk and tombstone are compared with the values that were
checked.  The catalogue is compared with the value that was read first and last; the one
that was checked was read between the two.  Both are the same in every run in which no
catalogue comes back: every one that replaces another was reconciled later.
-/
import Nufs.Proofs.Metadata.Frozen

namespace Nufs.Chunks

open Nufs.Metadata Interleave ExceptBind List

variable {V : Type} {codec : ChunkCodec V}

/-! ### Purges -/

/-- At this time the chunk may be purged: its quarantine is over, and no backup needs it. -/
def Purgeable (codec : ChunkCodec V) (rows : Rows V) (id : ChunkID) (now : Time) : Prop :=
  ∃ tombstoneRaw t catalogRaw catalog,
    rows.lookup (.tombstone id) = some tombstoneRaw ∧ codec.tombstone tombstoneRaw = some t ∧
    rows.lookup keyBackupCatalog = some catalogRaw ∧ codec.catalog catalogRaw = some catalog ∧
    t.deleteAfter ≤ now ∧ catalog.backups ≠ [] ∧ now - chunkCatalogMaxAge ≤ catalog.reconciledAt ∧
    ∀ b ∈ catalog.backups, t.deletedAt < b.createdAt

/-- The row was there, and is gone. -/
def Removed (rows rows' : Rows V) (k : Key) : Prop :=
  rows.lookup k ≠ none ∧ rows'.lookup k = none

/-- If a chunk or a tombstone is removed, then both are, by a purge that may do it. -/
def PurgesSafely (codec : ChunkCodec V) (call : Call V) (rows rows' : Rows V) : Prop :=
  ∀ id, Removed rows rows' (.chunk id) ∨ Removed rows rows' (.tombstone id) →
    Removed rows rows' (.chunk id) ∧ Removed rows rows' (.tombstone id) ∧
    ∃ now, call.op.Purges id now ∧ Purgeable codec rows id now

/-! ### Catalogues that do not come back -/

/-- The catalogue is the current one, or was reconciled later. -/
def Newer (codec : ChunkCodec V) (current : Option V) (value : V) : Prop :=
  current = some value ∨ ∀ old ∈ current.bind codec.catalog, ∀ new ∈ codec.catalog value,
    old.reconciledAt < new.reconciledAt

instance Newer.decidable [DecidableEq V] (current : Option V) (value : V) :
    Decidable (Newer codec current value) :=
  inferInstanceAs (Decidable (current = some value ∨ ∀ old ∈ current.bind codec.catalog,
    ∀ new ∈ codec.catalog value, old.reconciledAt < new.reconciledAt))

/-- The operation puts no catalogue in place that is not newer. -/
def SetsNewer (codec : ChunkCodec V) (current : Option V) : BatchOp V → Prop
  | .set key value => key = keyBackupCatalog → Newer codec current value
  | .delete _ => True

instance SetsNewer.decidable [DecidableEq V] (current : Option V) :
    DecidablePred (SetsNewer codec current)
  | .set key value =>
    inferInstanceAs (Decidable (key = keyBackupCatalog → Newer codec current value))
  | .delete _ => isTrue trivial

/-- The conditional batch of a request. -/
def Request.batch? : Request V → Option (ConditionalBatch V)
  | .propose ⟨_, some (.conditional c)⟩ => some c
  | _ => none

/-- A request that replaces the catalogue replaces it by a newer one. -/
def NewerCatalog (codec : ChunkCodec V) (r : Request V) (rows : Rows V) : Prop :=
  ∀ c ∈ r.batch?, ∀ op ∈ c.mutations, SetsNewer codec (rows.lookup keyBackupCatalog) op

instance NewerCatalog.decidable [DecidableEq V] (r : Request V) (rows : Rows V) :
    Decidable (NewerCatalog codec r rows) :=
  inferInstanceAs (Decidable
    (∀ c ∈ r.batch?, ∀ op ∈ c.mutations, SetsNewer codec (rows.lookup keyBackupCatalog) op))

/-- From one row of the catalogue to another: nothing happened, or it was reconciled since. -/
def Since (codec : ChunkCodec V) (past present : Option V) : Prop :=
  past = present ∨ ∃ value new, present = some value ∧ codec.catalog value = some new ∧
    ∀ old ∈ past.bind codec.catalog, old.reconciledAt < new.reconciledAt

theorem Since.trans {a b c : Option V} (hab : Since codec a b) (hbc : Since codec b c) :
    Since codec a c := by
  rcases hab with rfl | ⟨value, new, rfl, hnew, hlater⟩
  · exact hbc
  · rcases hbc with rfl | ⟨value', new', rfl, hnew', hlater'⟩
    · exact .inr ⟨value, new, rfl, hnew, hlater⟩
    · refine .inr ⟨value', new', rfl, hnew', ?_⟩
      intro old hold
      exact lt_trans (hlater old hold) (hlater' new hnew)

/-- A catalogue that is there again was there all the time. -/
theorem Since.antisymm {a b : V} (hab : Since codec (some a) (some b))
    (hba : Since codec (some b) (some a)) : a = b := by
  rcases hab with hab | ⟨value, new, hvalue, hnew, hlater⟩
  · exact Option.some.inj hab
  · rcases hba with hba | ⟨value', new', hvalue', hnew', hlater'⟩
    · exact (Option.some.inj hba).symm
    · cases hvalue
      cases hvalue'
      exact absurd (lt_trans (hlater new' hnew') (hlater' new hnew)) (lt_irrefl _)

/-- What the calls do to the catalogue, seen by a purge. -/
def CatalogSince (codec : ChunkCodec V) (rows rows' : Rows V) : Prop :=
  Since codec (rows.lookup keyBackupCatalog) (rows'.lookup keyBackupCatalog)

theorem CatalogSince.refl (rows : Rows V) : CatalogSince codec rows rows := Or.inl rfl

/-- What is owed to the others by a call. -/
def Guarantee (codec : ChunkCodec V) (call : Call V) (rows rows' : Rows V) : Prop :=
  CatalogSince codec rows rows' ∧ PurgesSafely codec call rows rows'

variable {call : Call V} {rows rows' : Rows V} {l : RaftLog V} {ops : List (BatchOp V)}
  {past : Option V} {chunkRaw tombstoneRaw : V} {term : UInt64}
  {references : InodeReferenceSnapshot V}

theorem Guarantee.of_not_removed (hcatalog : CatalogSince codec rows rows')
    (hchunk : ∀ id, ¬ Removed rows rows' (.chunk id))
    (htombstone : ∀ id, ¬ Removed rows rows' (.tombstone id)) :
    Guarantee codec call rows rows' := by
  refine ⟨hcatalog, ?_⟩
  intro id hgone
  rcases hgone with hgone | hgone
  · exact absurd hgone (hchunk id)
  · exact absurd hgone (htombstone id)

theorem Guarantee.refl (call : Call V) (rows : Rows V) : Guarantee codec call rows rows :=
  Guarantee.of_not_removed (CatalogSince.refl rows) (fun _ h => h.1 h.2) (fun _ h => h.1 h.2)

/-- The catalogue has been this one, or was reconciled since. -/
def Seen (codec : ChunkCodec V) (past : Option V) (rows : Rows V) : Prop :=
  Since codec past (rows.lookup keyBackupCatalog)

theorem Seen.later (h : Seen codec past rows) (hrows' : CatalogSince codec rows rows') :
    Seen codec past rows' := .trans h hrows'

/-! ### Entries that are no purges -/

variable {k : Key} {t : ChunkTombstone} {now : Time} {id : ChunkID}

theorem patchOf_sets (h : ∀ op ∈ ops, ∃ key value, op = .set key value) :
    patchOf k (ops.map Change.op) ≠ some none := by
  induction ops with
  | nil => simp [patchOf]
  | cons op ops ih =>
    obtain ⟨key, value, rfl⟩ := h op mem_cons_self
    have htail := ih fun o ho => h o (.tail _ ho)
    rw [map_cons, patchOf]
    cases hrest : patchOf k (ops.map Change.op) with
    | none =>
      rw [Option.none_or, Change.patch]
      by_cases hk : k = key
      · simp [hk]
      · simp [hk]
    | some v =>
      rw [hrest] at htail
      exact htail

theorem writes_keyBackupCatalog (state : BackupCatalogState) (t expectedRaftTerm : UInt64) :
    Fsm.writes ⟨t, some (.conditional (catalogBatch codec state expectedRaftTerm))⟩
      keyBackupCatalog = some (some (codec.marshalCatalog state)) := by
  have hrest : patchOf keyBackupCatalog (.clearCatalog :: state.backups.map fun b =>
      Change.op (.set (.backupCatalog b.id) (codec.marshalBackup b))) = none := by
    refine patchOf_eq_none ?_
    intro c hc
    rw [mem_cons, mem_map] at hc
    rcases hc with rfl | ⟨b, _, rfl⟩
    · simp [Change.patch, keyBackupCatalog, Key.InCatalog]
    · simp [Change.patch, keyBackupCatalog]
  have hchanges : Fsm.changes ⟨t, some (.conditional (catalogBatch codec state expectedRaftTerm))⟩ =
      [.op (.set keyBackupCatalog (codec.marshalCatalog state))] ++
        .clearCatalog :: state.backups.map fun b =>
          Change.op (.set (.backupCatalog b.id) (codec.marshalBackup b)) := by
    simp [Fsm.changes, catalogBatch, Function.comp_def]
  rw [Fsm.writes, hchanges, patchOf_append, hrest]
  simp [patchOf, Change.patch]

variable [DecidableEq V]

theorem not_removed_of_writes (h : Fsm.writes l k ≠ some none) :
    ¬ Removed rows (Fsm.apply codec.toCodec rows l).2 k := by
  intro hgone
  by_cases ha : Fsm.Accepts codec.toCodec rows l
  · have hnone := hgone.2
    rw [lookup_of_accepts k ha] at hnone
    cases hw : Fsm.writes l k with
    | none =>
      rw [hw] at hnone
      exact hgone.1 hnone
    | some value =>
      rw [hw] at hnone h
      exact h (congrArg some hnone)
  · have hnone := hgone.2
    rw [Fsm.apply_of_refused codec.toCodec ha] at hnone
    exact hgone.1 hnone

theorem not_removed_of_not_writes (h : Fsm.writes l k = none) :
    ¬ Removed rows (Fsm.apply codec.toCodec rows l).2 k := by
  refine not_removed_of_writes ?_
  simp [h]

theorem catalogSince_of_writes (h : Fsm.writes l keyBackupCatalog = none) :
    CatalogSince codec rows (Fsm.apply codec.toCodec rows l).2 :=
  Or.inl (Fsm.lookup_apply_of_not_writes codec.toCodec h).symm

theorem Guarantee.of_writes (hcatalog : CatalogSince codec rows (Fsm.apply codec.toCodec rows l).2)
    (hchunk : ∀ id, Fsm.writes l (.chunk id) = none)
    (htombstone : ∀ id, Fsm.writes l (.tombstone id) = none) :
    Guarantee codec call rows (Fsm.apply codec.toCodec rows l).2 :=
  .of_not_removed hcatalog (fun id => not_removed_of_not_writes (hchunk id))
    (fun id => not_removed_of_not_writes (htombstone id))

/-- A fenced batch that sets rows, none of which is the catalogue. -/
theorem guarantee_of_sets {pre : List (Precondition V)}
    (hl : l.entry = some (.conditional (fenced pre ops)))
    (hsets : ∀ op ∈ ops, ∃ key value, op = .set key value)
    (hkeys : ∀ op ∈ ops, op.key ≠ keyBackupCatalog) :
    Guarantee codec call rows (Fsm.apply codec.toCodec rows l).2 := by
  have hkept : ∀ k, ¬ Removed rows (Fsm.apply codec.toCodec rows l).2 k := by
    intro k
    refine not_removed_of_writes ?_
    rw [writes_fenced hl]
    exact patchOf_sets hsets
  refine .of_not_removed ?_ (fun id => hkept _) (fun id => hkept _)
  exact catalogSince_of_writes (not_writes_fenced hl hkeys)

/-- A new catalogue is a newer one. -/
theorem catalogSince_catalog {t expectedRaftTerm : UInt64} {state : BackupCatalogState}
    (h : Newer codec (rows.lookup keyBackupCatalog) (codec.marshalCatalog state)) :
    CatalogSince codec rows (Fsm.apply codec.toCodec rows
      ⟨t, some (.conditional (catalogBatch codec state expectedRaftTerm))⟩).2 := by
  by_cases ha : Fsm.Accepts codec.toCodec rows
      ⟨t, some (.conditional (catalogBatch codec state expectedRaftTerm))⟩
  · have hafter := lookup_of_accepts keyBackupCatalog ha
    rw [writes_keyBackupCatalog, Option.getD_some] at hafter
    unfold CatalogSince
    rw [hafter]
    rcases h with hsame | hlater
    · exact .inl hsame
    · exact .inr ⟨_, state, rfl, codec.catalog_marshal state,
        fun old hold => hlater old hold state (codec.catalog_marshal state)⟩
  · rw [Fsm.apply_of_refused codec.toCodec ha]
    exact .refl rows

/-- A request that is no purge removes nothing. -/
theorem guarantee_of_known {r : Request V} (hr : Known codec False r)
    (hallowed : NewerCatalog codec r rows) : Guarantee codec call rows (answer codec r rows).2 := by
  cases r with
  | propose log =>
    obtain ⟨t, entry⟩ := log
    obtain ⟨entry, rfl, hentry⟩ := hr
    show Guarantee codec call rows (Fsm.apply codec.toCodec rows ⟨t, some entry⟩).2
    cases hentry with
    | update raw chunk | tombstone references reason now hraw =>
      refine guarantee_of_sets rfl ?_ ?_
      · simp
      · simp [BatchOp.key, keyBackupCatalog]
    | degrade id value =>
      have hwrites : ∀ k : Key, k ≠ .extentMeta id →
          Fsm.writes ⟨t, some (.set (.extentMeta id) value)⟩ k = none := by
        intro k hk
        exact patchOf_ops k [.set (.extentMeta id) value] (by simp [BatchOp.key, Ne.symm hk])
      exact .of_writes (catalogSince_of_writes (hwrites _ Key.noConfusion))
        (fun _ => hwrites _ Key.noConfusion) (fun _ => hwrites _ Key.noConfusion)
    | @allocate id raw refs allotted hinode =>
      refine guarantee_of_sets rfl ?_ ?_
      · intro op hop
        rw [allocationOps, mem_append, mem_map, mem_singleton] at hop
        rcases hop with ⟨a, _, rfl⟩ | rfl
        · exact ⟨_, _, rfl⟩
        · exact ⟨_, _, rfl⟩
      · intro op hop hkey
        rcases allocationOps_key hop with ⟨a, _, hop⟩ | hop
        · exact Key.noConfusion (hop.symm.trans hkey)
        · exact Key.noConfusion (hop.symm.trans hkey)
    | purge references id catalogRaw chunkRaw tombstoneRaw hmay => exact hmay.elim
    | catalog state expectedRaftTerm =>
      have hnewer : Newer codec (rows.lookup keyBackupCatalog) (codec.marshalCatalog state) :=
        hallowed _ rfl _ mem_cons_self rfl
      refine .of_writes (catalogSince_catalog hnewer) (fun id => ?_) (fun id => ?_)
      · exact writes_catalog state t expectedRaftTerm not_false Key.noConfusion
      · exact writes_catalog state t expectedRaftTerm not_false Key.noConfusion
    | apply hkeys hfree =>
      have hwrites := writes_unprotected t hkeys hfree
      exact .of_writes (catalogSince_of_writes (hwrites _ rfl)) (fun _ => hwrites _ rfl)
        (fun _ => hwrites _ rfl)
  | _ => exact .refl call rows

/-! ### The program of a purge -/

/--
Started over these rows, the action keeps the guarantee of the call, and has the
postcondition if it ends without an error.
-/
def Action.Keeps (codec : ChunkCodec V) (call : Call V) {α : Type} (m : Action V α)
    (post : α → Rows V → Prop) (rows : Rows V) : Prop :=
  Ensures (answer codec) (NewerCatalog codec) (CatalogSince codec) (Guarantee codec call) m
    (fun r rows => ∀ a, r = .ok a → post a rows) rows

namespace Action

variable {α β : Type}

theorem Keeps.fail {e : ChunkErr} {post : α → Rows V → Prop} :
    Keeps codec call (fail e : Action V α) post rows := by
  intro rows' _ a ha
  cases ha

theorem Keeps.pure {a : α} {post : α → Rows V → Prop}
    (h : ∀ rows', CatalogSince codec rows rows' → post a rows') :
    Keeps codec call (pure a : Action V α) post rows := by
  intro rows' hrows' b hb
  cases hb
  exact h rows' hrows'

variable {m : Action V α} {post : β → Rows V → Prop} {f : α → Action V β}

theorem Keeps.mono {post post' : α → Rows V → Prop} (h : m.Keeps codec call post rows)
    (himp : ∀ a rows, post a rows → post' a rows) : m.Keeps codec call post' rows :=
  Ensures.mono h fun _ rows hr a ha => himp a rows (hr a ha)

theorem Keeps.of_known (h : m.Only (Known codec False)) :
    m.Keeps codec call (fun _ _ => True) rows := by
  have hensures : Ensures (answer codec) (NewerCatalog codec) (CatalogSince codec)
      (Guarantee codec call) m (fun _ _ => True) rows :=
    Ensures.of_only h fun r rows hr hallowed => guarantee_of_known hr hallowed
  exact Ensures.mono hensures fun _ _ _ _ _ => trivial

theorem Keeps.bind (h : m.Keeps codec call (fun a rows => (f a).Keeps codec call post rows) rows) :
    (m >>= f).Keeps codec call post rows := by
  refine Ensures.bind CatalogSince.refl (f := rest f) (.mono h ?_)
  intro r rows hr
  cases r with
  | error e => exact Keeps.fail
  | ok a => exact hr a rfl

/-- The value of a row is that of some moment from now on. -/
theorem Keeps.get_bind {key : Key} {f : Option V → Action V β}
    (h : ∀ rows', CatalogSince codec rows rows' →
      (f (rows'.lookup key)).Keeps codec call post rows') :
    (get key >>= f).Keeps codec call post rows := by
  intro rows' hrows' _
  exact ⟨.refl call rows', h rows' hrows'⟩

theorem Keeps.scan_bind {f : Rows V → Action V β}
    (h : ∀ rows', CatalogSince codec rows rows' → (f rows').Keeps codec call post rows') :
    (scan >>= f).Keeps codec call post rows := by
  intro rows' hrows' _
  exact ⟨.refl call rows', h rows' hrows'⟩

theorem Keeps.lift_bind {r : Except ChunkErr α}
    (h : ∀ a, r = .ok a → (f a).Keeps codec call post rows) :
    (lift r >>= f).Keeps codec call post rows := by
  cases r with
  | error e => exact .fail
  | ok a => exact h a rfl

theorem Keeps.attempt (h : m.Keeps codec call (fun _ _ => True) rows) :
    m.attempt.Keeps codec call (fun _ _ => True) rows := by
  refine Ensures.bind CatalogSince.refl (.mono h ?_)
  intro r rows _ rows' _ _ _
  trivial

theorem Keeps.applyConditional {c : ConditionalBatch V}
    (h : ∀ rows', CatalogSince codec rows rows' → Guarantee codec call rows'
      (Fsm.apply codec.toCodec rows' ⟨term, some (.conditional c)⟩).2) :
    (applyConditional term c).Keeps codec call (fun _ _ => True) rows := by
  have hpropose : (Action.propose ⟨term, some (.conditional c)⟩).Keeps codec call
      (fun _ _ => True) rows := by
    intro rows' hrows' _
    exact ⟨h rows' hrows', fun _ _ _ _ => trivial⟩
  refine .bind (.mono (.attempt hpropose) ?_)
  intro r rows' _
  split
  · exact .fail
  · exact fun _ _ _ _ => trivial

end Action

/-- The catalogue that is judged was in its row at a moment after the first reading. -/
theorem getCatalog_keeps (hpast : Seen codec past rows) :
    (getBackupCatalogState codec).Keeps codec call (fun state rows => ∀ catalog,
      state = some catalog → ∃ raw, codec.catalog raw = some catalog ∧
        Since codec past (some raw) ∧ Seen codec (some raw) rows) rows := by
  refine .get_bind ?_
  intro rows1 h1
  have hpast1 := hpast.later h1
  cases hrow : rows1.lookup keyBackupCatalog with
  | none =>
    refine .pure ?_
    intro _ _ catalog hcatalog
    cases hcatalog
  | some raw =>
    have hseen : Seen codec (some raw) rows1 := .inl hrow.symm
    rw [Seen, hrow] at hpast1
    simp only []
    cases hdec : codec.catalog raw with
    | none => exact .fail
    | some state =>
      refine .lift_bind ?_
      intro normalized _
      split_ifs with hne
      · exact .fail
      rw [not_not] at hne
      subst hne
      refine .scan_bind ?_
      intro rows2 h2
      split_ifs
      · refine .pure ?_
        intro rows3 h3 catalog hcatalog
        cases hcatalog
        exact ⟨raw, hdec, hpast1, (hseen.later h2).later h3⟩
      · exact .fail

/-- The catalogue says that the chunk may be purged. -/
def Eligible (codec : ChunkCodec V) (t : ChunkTombstone) (now : Time) (raw : V) : Prop :=
  ∃ catalog, codec.catalog raw = some catalog ∧ canPurgeWithCatalog t now (some catalog) = .ok true

theorem captureAttempts_keeps (attempts : Nat) (rows : Rows V) :
    (captureAttempts codec t now attempts).Keeps codec call
      (fun raw _ => Eligible codec t now raw) rows := by
  induction attempts generalizing rows with
  | zero => exact .fail
  | succ attempts ih =>
    refine .get_bind ?_
    intro rows1 h1
    cases hrow : rows1.lookup keyBackupCatalog with
    | none => exact .fail
    | some raw =>
      have hseen : Seen codec (some raw) rows1 := .inl hrow.symm
      refine .lift_bind ?_
      intro _ _
      refine .bind (.mono (getCatalog_keeps hseen) ?_)
      intro state rows2 hstate
      refine .lift_bind ?_
      intro eligible heligible
      by_cases hno : ¬ eligible = true
      · rw [if_pos hno]
        exact .fail
      rw [if_neg hno]
      rw [not_not] at hno
      subst hno
      refine .get_bind ?_
      intro rows3 h3
      split_ifs with hsame
      · refine .pure ?_
        intro _ _
        cases state with
        | none => cases heligible
        | some catalog =>
          -- the first reading and the last are the same, so nothing was between them
          obtain ⟨raw', hdec, hfirst, hlast⟩ := hstate catalog rfl
          have hback := hlast.later h3
          rw [Seen, hsame] at hback
          obtain rfl := Since.antisymm hfirst hback
          exact ⟨catalog, hdec, heligible⟩
      · exact ih rows3

theorem capture_keeps (rows : Rows V) : (capturePurgeCatalog codec t now).Keeps codec call
      (fun raw _ => t.deleteAfter ≤ now ∧ Eligible codec t now raw) rows := by
  refine .lift_bind ?_
  intro _ _
  by_cases hzero : now = 0
  · rw [if_pos hzero]
    exact .fail
  rw [if_neg hzero]
  by_cases hearly : now < t.deleteAfter
  · rw [if_pos hearly]
    exact .fail
  · rw [if_neg hearly]
    refine .mono (captureAttempts_keeps 3 rows) ?_
    intro raw _ hraw
    exact ⟨not_lt.mp hearly, hraw⟩

/-- What `canPurgeWithCatalog` says of the catalogue. -/
theorem eligible_catalog {catalog : BackupCatalogState}
    (h : canPurgeWithCatalog t now (some catalog) = .ok true) :
    catalog.backups ≠ [] ∧ now - chunkCatalogMaxAge ≤ catalog.reconciledAt ∧
      ∀ b ∈ catalog.backups, t.deletedAt < b.createdAt := by
  rw [canPurgeWithCatalog, ite_error_eq_ok, ite_error_eq_ok, ite_error_eq_ok, not_or, not_lt,
    not_lt] at h
  obtain ⟨hempty, -, hfresh, h⟩ := h
  refine ⟨hempty, ?_, ?_⟩
  · exact Int.sub_right_le_of_le_add (Int.le_add_of_sub_left_le hfresh.2)
  · intro b hb
    have hall := all_eq_true.mp (Except.ok.inj h) b hb
    exact of_decide_eq_true hall

/-- A valid pair has a tombstone that decodes to what is returned. -/
theorem tombstone_of_valid
    (h : validateDurableChunkTombstonePair codec id (some chunkRaw) (some tombstoneRaw) = .ok t) :
    codec.tombstone tombstoneRaw = some t := by
  unfold validateDurableChunkTombstonePair at h
  cases hchunk : codec.chunk chunkRaw with
  | none => simp [hchunk] at h
  | some chunk =>
    cases hdec : codec.tombstone tombstoneRaw with
    | none => simp [hchunk, hdec, ite_error_eq_ok] at h
    | some decoded =>
      simp only [hchunk, hdec, normalizeChunkTombstone, ite_error_eq_ok, bind_eq_ok,
        Except.ok.injEq] at h
      obtain ⟨-, tombstone, ⟨-, rfl⟩, -, -, rfl⟩ := h
      rfl

/-- The entry of a purge removes one chunk and its tombstone, over the rows it compares. -/
theorem guarantee_purge {catalogRaw : V} (hcall : call.op.Purges id now)
    (htombstone : codec.tombstone tombstoneRaw = some t) (hafter : t.deleteAfter ≤ now)
    (heligible : Eligible codec t now catalogRaw) (hl : l.entry = some (.conditional
      (purgeBatch references id catalogRaw chunkRaw tombstoneRaw))) :
    Guarantee codec call rows (Fsm.apply codec.toCodec rows l).2 := by
  by_cases ha : Fsm.Accepts codec.toCodec rows l
  · have hpre := preconditions_of_accepts hl ha
    have hcatalog : rows.lookup keyBackupCatalog = some catalogRaw :=
      hpre ⟨keyBackupCatalog, some catalogRaw⟩ (by simp [purgeBatch, fenced])
    have hchunk : rows.lookup (.chunk id) = some chunkRaw :=
      hpre ⟨.chunk id, some chunkRaw⟩ (by simp [purgeBatch, fenced])
    have htomb : rows.lookup (.tombstone id) = some tombstoneRaw :=
      hpre ⟨.tombstone id, some tombstoneRaw⟩ (by simp [purgeBatch, fenced])
    have hwrites : ∀ k, k ≠ .chunk id → k ≠ .tombstone id → Fsm.writes l k = none := by
      intro k hk hk'
      exact not_writes_fenced hl (by simp [BatchOp.key, Ne.symm hk, Ne.symm hk'])
    have hgone : ∀ k, k = .chunk id ∨ k = .tombstone id →
        (Fsm.apply codec.toCodec rows l).2.lookup k = none := by
      intro k hk
      rw [lookup_of_accepts k ha, writes_fenced hl]
      rcases hk with rfl | rfl
      · simp [patchOf, Change.patch]
      · simp [patchOf, Change.patch]
    refine ⟨catalogSince_of_writes (hwrites _ Key.noConfusion Key.noConfusion), ?_⟩
    intro id' hremoved
    have hid : id' = id := by
      by_contra hne
      rcases hremoved with hremoved | hremoved
      · exact not_removed_of_not_writes (hwrites _ (by simp [hne]) (by simp)) hremoved
      · exact not_removed_of_not_writes (hwrites _ (by simp) (by simp [hne])) hremoved
    subst hid
    obtain ⟨catalog, hdec, hcan⟩ := heligible
    obtain ⟨hnonempty, hfresh, hbackups⟩ := eligible_catalog hcan
    refine ⟨⟨?_, hgone _ (.inl rfl)⟩, ⟨?_, hgone _ (.inr rfl)⟩, now, hcall, ?_⟩
    · simp [hchunk]
    · simp [htomb]
    · exact ⟨tombstoneRaw, t, catalogRaw, catalog, htomb, htombstone, hcatalog, hdec, hafter,
        hnonempty, hfresh, hbackups⟩
  · rw [Fsm.apply_of_refused codec.toCodec ha]
    exact .refl call rows

theorem purgeIfEligible_keeps (hcall : call.op.Purges id now) (rows : Rows V) :
    (purgeChunkIfEligible codec term id now references).Keeps codec call
      (fun _ _ => True) rows := by
  unfold purgeChunkIfEligible
  split_ifs
  · exact .fail
  refine .get_bind ?_
  intro rows1 _
  refine .get_bind ?_
  intro rows2 _
  split
  · exact .pure fun _ _ => trivial
  · rename_i chunkRaw tombstoneRaw _ _
    refine .lift_bind ?_
    intro t ht
    refine .bind (.mono (capture_keeps rows2) ?_)
    intro catalogRaw rows3 hcaptured
    refine .bind (.mono (.attempt (.applyConditional fun rows4 _ => guarantee_purge hcall
        (tombstone_of_valid ht) hcaptured.1 hcaptured.2 rfl)) ?_)
    intro r rows5 _
    split
    · exact .of_known (known_reconcilePurge id)
    · exact .of_known (.lift _)
  · exact .fail

/-! ### Whatever is interleaved -/

theorem action_keeps (call : Call V) (rows : Rows V) :
    (call.action codec).Keeps codec call (fun _ _ => True) rows := by
  by_cases hpurge : ∃ id now, call.op.Purges id now
  · obtain ⟨id, now, hcall⟩ := hpurge
    obtain ⟨term, op⟩ := call
    cases op with
    | purgeChunk id' now' =>
      have hpurges : Operation.Purges id now (.purgeChunk id' now' : Operation V) := hcall
      obtain ⟨rfl, rfl⟩ := hcall
      refine .bind (.mono (.of_known (known_stableSnapshot 3)) ?_)
      intro references rows' _
      exact purgeIfEligible_keeps hpurges rows'
    | purgeChunkIfEligible id' now' references =>
      have hpurges : Operation.Purges id now (.purgeChunkIfEligible id' now' references) := hcall
      obtain ⟨rfl, rfl⟩ := hcall
      exact purgeIfEligible_keeps hpurges rows
    | _ => exact hcall.elim
  · exact .of_known (known_action call fun id now h => hpurge ⟨id, now, h⟩)

/--
**A purge has checked what it deletes.**  Calls come in and are interleaved in any way, over
any rows; every catalogue that replaces another was reconciled later.  If a step removes the
row of a chunk or of a tombstone, it removes both, and it is the commit of a purge of that
chunk: at the time the purge has for now the quarantine is over, and the catalogue in its
row is fresh, is not empty, and has only backups that were made after the deletion.
-/
theorem purge_safe (codec : ChunkCodec V) (rows : Rows V) {events : List (Event (Call V))}
    {s s' : Service V} {e : Event (Call V)}
    (hmeets : Guarded.Meets (Service.next codec) (Pool.Allows (NewerCatalog codec)) events
      ⟨rows, []⟩) (hrun : Guarded.run (Service.next codec) events ⟨rows, []⟩ = some s)
    (hallows : s.Allows (NewerCatalog codec) e) (hstep : s.next codec e = some s') {id : ChunkID}
    (hgone : Removed s.state s'.state (.chunk id) ∨ Removed s.state s'.state (.tombstone id)) :
    Removed s.state s'.state (.chunk id) ∧ Removed s.state s'.state (.tombstone id) ∧
      ∃ i t now, e = .advance i ∧ s.threads[i]? = some t ∧ t.1.op.Purges id now ∧
        Purgeable codec s.state id now := by
  have hprog : ∀ (call : Call V) (rows : Rows V), Ensures (answer codec) (NewerCatalog codec)
      (CatalogSince codec) (Guarantee codec call) (call.action codec) (fun _ _ => True) rows :=
    fun call rows => .mono (action_keeps call rows) fun _ _ _ => trivial
  have hkept := Pool.run_kept CatalogSince.refl (fun _ _ _ h h' => Since.trans h h')
    (fun _ _ _ h => h.1) hprog hmeets hrun hallows hstep
  rcases hkept with hsame | ⟨i, t, he, ht, hguar⟩
  · rw [hsame] at hgone
    rcases hgone with hgone | hgone
    · exact absurd hgone.2 hgone.1
    · exact absurd hgone.2 hgone.1
  · obtain ⟨hchunk, htombstone, now, hpurges, hpurgeable⟩ := hguar.2 id hgone
    exact ⟨hchunk, htombstone, i, t, now, he, ht, hpurges, hpurgeable⟩

/-- A backup, made at some hour. -/
def backupAt (id : Char) (h : Int) : CommittedBackup := ⟨[id], ['c'], h * hour, 1, 1, 0⟩

/-- A chunk that was deleted in the hundredth hour, and a catalogue with a backup from before. -/
def deletedChunk : Rows Stored :=
  let chunk : ChunkMeta := ⟨7, 10, .ready, [], 0⟩
  let old := backupAt 'a' 50
  ((((∅ : Rows Stored).insert (.chunk 7) (.chunk chunk)).insert
    (.tombstone 7) (.tombstone (chunk.tombstone ['r'] (100 * hour)))).insert
    keyBackupCatalog (.catalog ⟨[old], 128 * hour⟩)).insert
    (.backupCatalog old.id) (.backup old)

/-- The old backup is dropped from the catalogue, and then the chunk is purged. -/
def purgeAfterDrop : List (Event (Call Stored)) :=
  [.start ⟨1, .replaceCommittedBackupCatalog [backupAt 'b' 110] (129 * hour) 0⟩, .advance 0,
    .start ⟨1, .purgeChunk 7 (130 * hour)⟩] ++ List.replicate 9 (.advance 1)

theorem purge_safe_after_drop :
    ∃ s s', Guarded.run (Service.next Stored.codec) purgeAfterDrop ⟨deletedChunk, []⟩ = some s ∧
      s.next Stored.codec (.advance 1) = some s' ∧ Removed s.state s'.state (.chunk 7) ∧
      Removed s.state s'.state (.tombstone 7) ∧ ∃ now, Purgeable Stored.codec s.state 7 now := by
  have hmeets : Guarded.Meets (Service.next Stored.codec)
      (Pool.Allows (NewerCatalog Stored.codec)) purgeAfterDrop ⟨deletedChunk, []⟩ := by
    decide +kernel
  have hbefore : (Guarded.run (Service.next Stored.codec) purgeAfterDrop ⟨deletedChunk, []⟩).map
      (fun s => (s.state.lookup (.chunk 7) != none,
        decide (s.Allows (NewerCatalog Stored.codec) (.advance 1)))) = some (true, true) := by
    decide +kernel
  have hafter : ((Guarded.run (Service.next Stored.codec) purgeAfterDrop ⟨deletedChunk, []⟩).bind
      fun s => s.next Stored.codec (.advance 1)).map (fun s => s.state.lookup (.chunk 7)) =
        some none := by
    decide +kernel
  obtain ⟨s, hrun, hs⟩ := Option.map_eq_some_iff.mp hbefore
  obtain ⟨s', hstep, hs'⟩ := Option.map_eq_some_iff.mp hafter
  rw [hrun, Option.bind_some] at hstep
  rw [Prod.mk.injEq, decide_eq_true_eq, bne_iff_ne] at hs
  obtain ⟨hchunk, htombstone, _, _, now, _, _, _, hpurgeable⟩ :=
    purge_safe Stored.codec deletedChunk hmeets hrun hs.2 hstep (Or.inl ⟨hs.1, hs'⟩)
  exact ⟨s, s', hrun, hstep, hchunk, htombstone, now, hpurgeable⟩

/--
The purge reads the catalogue, another one takes its place, the purge checks that one, and
then the first one comes back.
-/
def purgeOverReturn : List (Event (Call Stored)) :=
  [.start ⟨1, .purgeChunkIfEligible 7 (130 * hour) ⟨none, ∅⟩⟩,
    .start ⟨1, .replaceCommittedBackupCatalog [backupAt 'b' 110] (129 * hour) 0⟩,
    .start ⟨1, .replaceCommittedBackupCatalog [backupAt 'a' 50] (128 * hour) 0⟩,
    .advance 0, .advance 0, .advance 0, .advance 1, .advance 0, .advance 0, .advance 2, .advance 0]

/-- Without the condition the chunk of a retained backup is purged. -/
theorem purge_of_backed_up_chunk :
    ∃ s s', Guarded.run (Service.next Stored.codec) purgeOverReturn ⟨deletedChunk, []⟩ = some s ∧
      s.next Stored.codec (.advance 0) = some s' ∧ Removed s.state s'.state (.chunk 7) ∧
      ∀ now, ¬ Purgeable Stored.codec s.state 7 now := by
  have hbefore : (Guarded.run (Service.next Stored.codec) purgeOverReturn ⟨deletedChunk, []⟩).map
      (fun s => (s.state.lookup (.chunk 7) != none, s.state.lookup (.tombstone 7),
        s.state.lookup keyBackupCatalog)) =
      some (true, deletedChunk.lookup (.tombstone 7), deletedChunk.lookup keyBackupCatalog) := by
    decide +kernel
  have hafter : ((Guarded.run (Service.next Stored.codec) purgeOverReturn ⟨deletedChunk, []⟩).bind
      fun s => s.next Stored.codec (.advance 0)).map (fun s => s.state.lookup (.chunk 7)) =
        some none := by
    decide +kernel
  obtain ⟨s, hrun, hs⟩ := Option.map_eq_some_iff.mp hbefore
  obtain ⟨s', hstep, hs'⟩ := Option.map_eq_some_iff.mp hafter
  rw [hrun, Option.bind_some] at hstep
  rw [Prod.mk.injEq, Prod.mk.injEq, bne_iff_ne] at hs
  refine ⟨s, s', hrun, hstep, ⟨hs.1, hs'⟩, ?_⟩
  intro now hpurgeable
  obtain ⟨tombstoneRaw, t, catalogRaw, catalog, htomb, ht, hcatalog, hc, _, _, _, hbackups⟩ :=
    hpurgeable
  rw [hs.2.1] at htomb
  rw [hs.2.2] at hcatalog
  obtain rfl : Stored.tombstone _ = tombstoneRaw := Option.some.inj htomb
  obtain rfl : Stored.catalog _ = catalogRaw := Option.some.inj hcatalog
  cases ht
  cases hc
  have hlt := hbackups (backupAt 'a' 50) mem_cons_self
  exact absurd hlt (by decide)

end Nufs.Chunks
