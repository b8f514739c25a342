/-
A tombstone freezes its chunk.

A chunk with a tombstone keeps its row, with the size and the replicas the tombstone has a
copy of, and no inode gets it any more.  Every entry that changes a chunk's row, or adds a
chunk to an inode, wants the tombstone to be absent when it is applied; what was read
before that does not matter.
-/
import Nufs.Lib.ExceptBind
import Nufs.Proofs.Metadata.ChunkRequests

namespace Nufs.Chunks

open Nufs.Metadata Interleave ExceptBind List

variable {V : Type} {codec : ChunkCodec V}

/-! ### What is to be kept -/

section

variable (codec : ChunkCodec V)

/-- The chunk has the size and the replicas of the tombstone with this value. -/
def Pair (rows : Rows V) (id : ChunkID) (value : V) : Prop :=
  ∃ raw chunk t, rows.lookup (.chunk id) = some raw ∧ codec.chunk raw = some chunk ∧
    codec.tombstone value = some t ∧ t.size = chunk.size ∧ t.replicas = chunk.replicas

/-- Every tombstone has its chunk. -/
def Frozen (rows : Rows V) : Prop :=
  ∀ id value, rows.lookup (.tombstone id) = some value → Pair codec rows id value

/-- The `ChunkMap` of an inode. -/
def chunkMap (rows : Rows V) (id : InodeID) : List ChunkRef :=
  (((rows.lookup (.inode id)).bind codec.inode).map Prod.snd).getD []

/-- An inode has got the chunk. -/
def Attaches (rows rows' : Rows V) (c : ChunkID) : Prop :=
  ∃ id, c ∈ (chunkMap codec rows' id).map ChunkRef.id ∧
    c ∉ (chunkMap codec rows id).map ChunkRef.id

/-- No inode gets a chunk that has a tombstone. -/
def AttachesLive (rows rows' : Rows V) : Prop :=
  ∀ c, Attaches codec rows rows' c → rows.lookup (.tombstone c) = none

end

variable {rows rows' : Rows V} {pre : List (Precondition V)} {ops : List (BatchOp V)}
  {entry : RaftLogEntry V} {l : RaftLog V} {references : InodeReferenceSnapshot V} {raw : V}
  {op : BatchOp V} {refs : List ChunkRef}

theorem Frozen.step (h : Frozen codec rows)
    (hstep : ∀ id value, rows'.lookup (.tombstone id) = some value →
      (rows.lookup (.tombstone id) = some value ∧
        rows'.lookup (.chunk id) = rows.lookup (.chunk id)) ∨ Pair codec rows' id value) :
    Frozen codec rows' := by
  intro id value hvalue
  rcases hstep id value hvalue with ⟨hsame, hchunk⟩ | hpair
  · obtain ⟨raw, chunk, t, hraw, hrest⟩ := h id value hsame
    exact ⟨raw, chunk, t, by rw [hchunk, hraw], hrest⟩
  · exact hpair

variable {id : InodeID} {k : Key} {t : UInt64} {keys : List Key} {allotted : List Allotted}
  {c : ChunkID}

theorem chunkMap_congr (h : rows'.lookup (.inode id) = rows.lookup (.inode id)) :
    chunkMap codec rows' id = chunkMap codec rows id := by
  unfold chunkMap
  rw [h]

theorem AttachesLive.of_same (h : ∀ id, rows'.lookup (.inode id) = rows.lookup (.inode id)) :
    AttachesLive codec rows rows' := by
  intro c hc
  obtain ⟨id, hin, hnot⟩ := hc
  rw [chunkMap_congr (h id)] at hin
  exact absurd hin hnot

/-! ### Batches that pass the check -/

theorem chunkMap_of_decode (h : Fsm.decodeReferencedInode codec.toCodec rows id = .ok refs) :
    chunkMap codec rows id = refs := by
  unfold Fsm.decodeReferencedInode at h
  unfold chunkMap
  cases hrow : rows.lookup (.inode id) with
  | none =>
    rw [hrow] at h
    simpa using h
  | some raw =>
    rw [hrow] at h
    simp only [] at h
    cases hdec : codec.inode raw with
    | none =>
      rw [hdec] at h
      cases h
    | some inode =>
      rw [hdec] at h
      simp only [] at h
      by_cases hid : inode.1 = id
      · rw [if_pos hid, Except.ok.injEq] at h
        simp [hdec, h]
      · rw [if_neg hid] at h
        cases h

/-- An inode's row that passes the check adds chunks that are there and have no tombstone. -/
theorem live_of_checkInode {value : V} (h : Fsm.checkInode codec.toCodec rows id value = .ok ())
    (hnew : c ∈ (chunkMap codec (rows.insert (.inode id) value) id).map ChunkRef.id)
    (hold : c ∉ (chunkMap codec rows id).map ChunkRef.id) : rows.lookup (.tombstone c) = none := by
  obtain ⟨old, hdecode, hcheck⟩ := bind_eq_ok.mp h
  rw [chunkMap_of_decode hdecode] at hold
  unfold chunkMap at hnew
  rw [Finmap.lookup_insert, Option.bind_some] at hnew
  cases hdec : codec.inode value with
  | none => simp [hdec] at hnew
  | some inode =>
    rw [hdec] at hnew
    simp only [hdec, ite_error_eq_ok] at hcheck
    obtain ⟨-, hcheck⟩ := hcheck
    split at hcheck
    · rename_i hall
      have hadded : c ∈ Fsm.addedChunkReferences old inode.2 := by
        rw [Fsm.addedChunkReferences, mem_filter]
        exact ⟨hnew, by simpa using hold⟩
      have hlive := all_eq_true.mp hall c hadded
      rw [Fsm.available, Bool.and_eq_true] at hlive
      simpa using hlive.2
    · cases hcheck

theorem lookup_apply_of_ne (h : op.key ≠ k) : (op.apply rows).lookup k = rows.lookup k := by
  cases op with
  | set key value => exact Finmap.lookup_insert_of_ne _ (Ne.symm h)
  | delete key => exact Finmap.lookup_erase_ne (Ne.symm h)

/-- One operation that passes the check. -/
theorem live_of_checkOp (h : Fsm.checkOp codec.toCodec rows op = .ok ())
    (hc : Attaches codec rows (op.apply rows) c) : rows.lookup (.tombstone c) = none := by
  obtain ⟨id, hnew, hold⟩ := hc
  by_cases hkey : op.key = .inode id
  · cases op with
    | set key value =>
      obtain rfl : key = .inode id := hkey
      exact live_of_checkInode h hnew hold
    | delete key =>
      obtain rfl : key = .inode id := hkey
      unfold chunkMap at hnew
      rw [BatchOp.apply, Finmap.lookup_erase] at hnew
      simp at hnew
  · rw [chunkMap_congr (lookup_apply_of_ne hkey)] at hnew
    exact absurd hnew hold

/-- A batch that passes `prepareReferenceAwareBatch` and leaves tombstones alone. -/
theorem live_of_prepare (h : Fsm.prepareReferenceAwareBatch codec.toCodec rows ops = .ok ())
    (hfree : ∀ op ∈ ops, ∀ id, op.key ≠ .tombstone id)
    (hc : Attaches codec rows (ops.foldl BatchOp.apply rows) c) :
    rows.lookup (.tombstone c) = none := by
  induction ops generalizing rows with
  | nil =>
    obtain ⟨id, hnew, hold⟩ := hc
    exact absurd hnew hold
  | cons op ops ih =>
    rw [Fsm.prepareReferenceAwareBatch, check_bind_eq_ok] at h
    obtain ⟨id, hnew, hold⟩ := hc
    by_cases hmid : c ∈ (chunkMap codec (op.apply rows) id).map ChunkRef.id
    · exact live_of_checkOp h.1 ⟨id, hmid, hold⟩
    · have hlater := ih h.2 (fun o ho => hfree o (.tail _ ho)) ⟨id, hnew, hmid⟩
      rw [lookup_apply_of_ne (hfree op (.head _) c)] at hlater
      exact hlater

/-! ### What entries write -/

theorem patchOf_append (k : Key) (cs cs' : List (Change V)) :
    patchOf k (cs ++ cs') = (patchOf k cs').or (patchOf k cs) := by
  induction cs with
  | nil => simp [patchOf]
  | cons c cs ih => rw [cons_append, patchOf, ih, patchOf, Option.or_assoc]

theorem patchOf_eq_none {cs : List (Change V)} (h : ∀ c ∈ cs, c.patch k = none) :
    patchOf k cs = none := by
  induction cs with
  | nil => rfl
  | cons c cs ih =>
    rw [patchOf, ih fun c' hc' => h c' (.tail _ hc'), h c mem_cons_self]
    rfl

theorem allocationOps_key (hop : op ∈ allocationOps codec id raw allotted) :
    (∃ a ∈ allotted, op.key = .chunk a.id) ∨ op.key = .inode id := by
  rw [allocationOps, mem_append, mem_map, mem_singleton] at hop
  rcases hop with ⟨a, ha, rfl⟩ | rfl
  · exact .inl ⟨a, ha, rfl⟩
  · exact .inr rfl

theorem mem_allocation_preconditions (codec : ChunkCodec V) {a : Allotted} (ha : a ∈ allotted)
    (id : InodeID) (raw : V) : (⟨.tombstone a.id, none⟩ : Precondition V) ∈
      (allocationBatch codec id raw allotted).preconditions := by
  refine mem_cons_of_mem _ (mem_flatMap.mpr ⟨a, ha, ?_⟩)
  exact .tail _ mem_cons_self

/-- A catalogue replaces the old one and nothing else. -/
theorem writes_catalog (state : BackupCatalogState) (t expectedRaftTerm : UInt64)
    (hk : ¬ k.InCatalog) (hne : k ≠ keyBackupCatalog) :
    Fsm.writes ⟨t, some (.conditional (catalogBatch codec state expectedRaftTerm))⟩ k = none := by
  refine patchOf_eq_none ?_
  intro c hc
  simp only [Fsm.changes, catalogBatch, map_cons, map_nil, flatMap_cons, flatMap_nil, append_nil,
    cons_append, nil_append, mem_cons, mem_map] at hc
  rcases hc with rfl | rfl | ⟨set, ⟨b, _, rfl⟩, rfl⟩
  · exact if_neg hne
  · exact if_neg hk
  · refine if_neg ?_
    intro heq
    rw [heq] at hk
    exact hk trivial

section Fenced

variable (hl : l.entry = some (.conditional (fenced pre ops)))
include hl

theorem writes_fenced (k : Key) : Fsm.writes l k = patchOf k (ops.map Change.op) := by
  simp [Fsm.writes, Fsm.changes, hl, fenced]

theorem not_writes_fenced (h : ∀ op ∈ ops, op.key ≠ k) : Fsm.writes l k = none :=
  (writes_fenced hl k).trans (patchOf_ops k ops h)

theorem lookup_fenced [DecidableEq V] (rows : Rows V) (h : ∀ op ∈ ops, op.key ≠ k) :
    (Fsm.apply codec.toCodec rows l).2.lookup k = rows.lookup k :=
  Fsm.lookup_apply_of_not_writes codec.toCodec (not_writes_fenced hl h)

end Fenced

variable [DecidableEq V]

theorem preconditions_of_accepts {c : ConditionalBatch V}
    (hl : l.entry = some (.conditional c)) (h : Fsm.Accepts codec.toCodec rows l) :
    ∀ p ∈ c.preconditions, rows.lookup p.key = p.expected := by
  unfold Fsm.Accepts Fsm.judge at h
  simp only [hl] at h
  split at h
  · exact absurd h Bool.false_ne_true
  split at h
  · exact absurd h Bool.false_ne_true
  · split at h
    · rename_i hhold
      intro p hp
      simpa using all_eq_true.mp hhold p hp
    · exact absurd h Bool.false_ne_true

/-- Entries of the rest of the service are batches that are checked. -/
theorem public_batch (t : UInt64) (hkeys : publicKeys entry = some keys) :
    ∃ ops, ops.map BatchOp.key = keys ∧ Fsm.changes ⟨t, some entry⟩ = ops.map Change.op ∧
      ∀ {codec : Codec V} {rows}, Fsm.Accepts codec rows ⟨t, some entry⟩ →
        Fsm.prepareReferenceAwareBatch codec rows ops = .ok () := by
  have isOk_iff : ∀ x : Except FsmErr Unit, x.isOk = true → x = .ok () := by
    intro x hx
    cases x with
    | error e => exact absurd hx Bool.false_ne_true
    | ok u => rfl
  cases entry with
  | set key value => exact ⟨[.set key value], Option.some.inj hkeys, rfl, isOk_iff _⟩
  | delete key => exact ⟨[.delete key], Option.some.inj hkeys, rfl, isOk_iff _⟩
  | batch ops => exact ⟨ops, Option.some.inj hkeys, rfl, isOk_iff _⟩
  | conditional c => cases hkeys
  | cas key expectedVer newData =>
    refine ⟨[.set key newData], Option.some.inj hkeys, rfl, fun h => ?_⟩
    unfold Fsm.Accepts Fsm.judge at h
    simp only [] at h
    split at h
    · exact absurd h Bool.false_ne_true
    · split at h
      · exact absurd h Bool.false_ne_true
      · split at h
        · exact isOk_iff _ h
        · exact absurd h Bool.false_ne_true

/-! ### Chunks keep their tombstones' copy -/

/-- A batch that writes no tombstone, and chunks only where it wants none. -/
theorem Frozen.fenced (h : Frozen codec rows)
    (htombstone : ∀ op ∈ ops, ∀ id, op.key ≠ .tombstone id)
    (hchunk : ∀ op ∈ ops, ∀ id, op.key = .chunk id → (⟨.tombstone id, none⟩ : Precondition V) ∈ pre)
    (hl : l.entry = some (.conditional (fenced pre ops)))
    (ha : Fsm.Accepts codec.toCodec rows l) :
    Frozen codec (Fsm.apply codec.toCodec rows l).2 := by
  refine h.step ?_
  intro id value hvalue
  left
  rw [lookup_fenced hl rows fun op hop => htombstone op hop id] at hvalue
  refine ⟨hvalue, lookup_fenced hl rows ?_⟩
  intro op hop hkey
  -- the batch would have been refused
  have hnone := preconditions_of_accepts hl ha _ (hchunk op hop id hkey)
  rw [hvalue] at hnone
  cases hnone

theorem Frozen.of_not_writes (h : Frozen codec rows)
    (htombstone : ∀ id, Fsm.writes l (.tombstone id) = none)
    (hchunk : ∀ id, Fsm.writes l (.chunk id) = none) :
    Frozen codec (Fsm.apply codec.toCodec rows l).2 := by
  refine h.step ?_
  intro id value hvalue
  rw [Fsm.lookup_apply_of_not_writes codec.toCodec (htombstone id)] at hvalue
  exact .inl ⟨hvalue, Fsm.lookup_apply_of_not_writes codec.toCodec (hchunk id)⟩

theorem lookup_of_accepts (k : Key) (ha : Fsm.Accepts codec.toCodec rows l) :
    (Fsm.apply codec.toCodec rows l).2.lookup k = (Fsm.writes l k).getD (rows.lookup k) :=
  (Fsm.overwrites codec.toCodec).accepted k ha

theorem Frozen.tombstone (h : Frozen codec rows) {chunk : ChunkMeta} {reason : List Char}
    {now : Time} (hraw : codec.chunk raw = some chunk)
    (hl : l.entry = some (.conditional (tombstoneBatch codec references chunk.id raw
      (chunk.tombstone reason now)))) (ha : Fsm.Accepts codec.toCodec rows l) :
    Frozen codec (Fsm.apply codec.toCodec rows l).2 := by
  have hrow : rows.lookup (.chunk chunk.id) = some raw :=
    preconditions_of_accepts hl ha ⟨.chunk chunk.id, some raw⟩
      (by simp [tombstoneBatch, Chunks.fenced])
  have hkept : ∀ id, (Fsm.apply codec.toCodec rows l).2.lookup (.chunk id) =
      rows.lookup (.chunk id) := by
    intro id
    exact lookup_fenced hl rows (by simp [BatchOp.key])
  refine h.step ?_
  intro id value hvalue
  by_cases hid : id = chunk.id
  · -- the new tombstone is a copy of the row it was compared with
    subst hid
    right
    rw [lookup_of_accepts _ ha, writes_fenced hl] at hvalue
    have hcopy : codec.marshalTombstone (chunk.tombstone reason now) = value := by
      simpa [patchOf, Change.patch] using hvalue
    refine ⟨raw, chunk, chunk.tombstone reason now, ?_, hraw, ?_, rfl, rfl⟩
    · rw [hkept]
      exact hrow
    · rw [← hcopy]
      exact codec.tombstone_marshal _
  · left
    refine ⟨?_, hkept id⟩
    rw [lookup_fenced hl rows (by simp [BatchOp.key, Ne.symm hid])] at hvalue
    exact hvalue

theorem Frozen.purge (h : Frozen codec rows) {id : ChunkID} {catalogRaw chunkRaw tombstoneRaw : V}
    (hl : l.entry = some (.conditional (purgeBatch references id catalogRaw chunkRaw
      tombstoneRaw))) (ha : Fsm.Accepts codec.toCodec rows l) :
    Frozen codec (Fsm.apply codec.toCodec rows l).2 := by
  refine h.step ?_
  intro id' value hvalue
  left
  by_cases hid : id' = id
  · subst hid
    rw [lookup_of_accepts _ ha, writes_fenced hl] at hvalue
    simp [patchOf, Change.patch] at hvalue
  rw [lookup_fenced hl rows (by simp [BatchOp.key, Ne.symm hid])] at hvalue
  exact ⟨hvalue, lookup_fenced hl rows (by simp [BatchOp.key, Ne.symm hid])⟩

theorem writes_unprotected (t : UInt64) (hkeys : publicKeys entry = some keys)
    (hfree : ∀ k ∈ keys, isPublicRaftProtectedKey k = false) (k : Key)
    (hk : isPublicRaftProtectedKey k = true) : Fsm.writes ⟨t, some entry⟩ k = none := by
  obtain ⟨ops, rfl, hchanges, -⟩ := public_batch t hkeys
  rw [Fsm.writes, hchanges]
  refine patchOf_ops k ops ?_
  intro op hop heq
  have hnot := hfree _ (mem_map_of_mem hop)
  rw [heq, hk] at hnot
  cases hnot

/-- Every entry that a call proposes keeps tombstones and chunks together. -/
theorem Frozen.apply (h : Frozen codec rows) (t : UInt64) (hentry : Proposed codec True entry) :
    Frozen codec (Fsm.apply codec.toCodec rows ⟨t, some entry⟩).2 := by
  by_cases ha : Fsm.Accepts codec.toCodec rows ⟨t, some entry⟩
  · cases hentry with
    | update raw chunk =>
      refine h.fenced ?_ ?_ rfl ha
      · simp [BatchOp.key]
      · intro op hop id hkey
        obtain rfl := mem_singleton.mp hop
        obtain rfl : chunk.id = id := Key.chunk.inj hkey
        exact mem_cons_of_mem _ mem_cons_self
    | degrade id value =>
      refine h.of_not_writes (fun id' => ?_) (fun id' => ?_)
      · exact patchOf_ops _ [.set (.extentMeta id) value] (by simp [BatchOp.key])
      · exact patchOf_ops _ [.set (.extentMeta id) value] (by simp [BatchOp.key])
    | @allocate id raw refs allotted hinode =>
      refine h.fenced ?_ ?_ rfl ha
      · intro op hop id' hkey
        rcases allocationOps_key hop with ⟨a, _, hop⟩ | hop
        · exact Key.noConfusion (hop.symm.trans hkey)
        · exact Key.noConfusion (hop.symm.trans hkey)
      · intro op hop id' hkey
        rcases allocationOps_key hop with ⟨a, hmem, hop⟩ | hop
        · obtain rfl : a.id = id' := Key.chunk.inj (hop.symm.trans hkey)
          exact mem_allocation_preconditions codec hmem id raw
        · exact Key.noConfusion (hop.symm.trans hkey)
    | tombstone references reason now hraw => exact h.tombstone hraw rfl ha
    | purge references id catalogRaw chunkRaw tombstoneRaw _ => exact h.purge rfl ha
    | catalog state expectedRaftTerm =>
      refine h.of_not_writes (fun id => ?_) (fun id => ?_)
      · exact writes_catalog state t expectedRaftTerm not_false Key.noConfusion
      · exact writes_catalog state t expectedRaftTerm not_false Key.noConfusion
    | apply hkeys hfree =>
      have hwrites := writes_unprotected t hkeys hfree
      exact h.of_not_writes (fun id => hwrites _ rfl) (fun id => hwrites _ rfl)
  · rw [Fsm.apply_of_refused codec.toCodec ha]
    exact h

/-! ### Inodes get live chunks only -/

/-- An allocation adds the chunks it creates, and wants no tombstone of them. -/
theorem live_of_allocation (hinode : codec.inode raw = some (id, refs))
    (hl : l.entry = some (.conditional (allocationBatch codec id raw allotted)))
    (ha : Fsm.Accepts codec.toCodec rows l) :
    AttachesLive codec rows (Fsm.apply codec.toCodec rows l).2 := by
  intro c hc
  obtain ⟨id', hnew, hold⟩ := hc
  have hpre := preconditions_of_accepts hl ha
  by_cases hid : id' = id
  · subst hid
    have hrow : rows.lookup (.inode id') = some raw := hpre _ mem_cons_self
    let new := allotted.map fun a => (⟨a.id, a.offset, 0⟩ : ChunkRef)
    have hafter : (Fsm.apply codec.toCodec rows l).2.lookup (.inode id') =
        some (codec.addChunks raw new) := by
      rw [lookup_of_accepts _ ha, writes_fenced hl, allocationOps, map_append, patchOf_append]
      simp [patchOf, Change.patch, new]
    unfold chunkMap at hnew hold
    rw [hafter, Option.bind_some, codec.inode_addChunks raw id' refs new hinode] at hnew
    rw [hrow, Option.bind_some, hinode] at hold
    have hmem : c ∈ new.map ChunkRef.id := by
      simp only [Option.map_some, Option.getD_some, map_append, mem_append] at hnew hold
      exact hnew.resolve_left hold
    simp only [new, map_map, mem_map] at hmem
    obtain ⟨a, hmem, rfl⟩ := hmem
    exact hpre _ (mem_allocation_preconditions codec hmem id' raw)
  · have hsame : (Fsm.apply codec.toCodec rows l).2.lookup (.inode id') =
        rows.lookup (.inode id') := by
      refine lookup_fenced hl rows ?_
      intro op hop hkey
      rcases allocationOps_key hop with ⟨a, _, hop⟩ | hop
      · exact Key.noConfusion (hop.symm.trans hkey)
      · exact hid (Key.inode.inj (hop.symm.trans hkey)).symm
    rw [chunkMap_congr hsame] at hnew
    exact absurd hnew hold

/-- No entry that a call proposes gives an inode a chunk with a tombstone. -/
theorem attachesLive_apply (t : UInt64) (hentry : Proposed codec True entry) :
    AttachesLive codec rows (Fsm.apply codec.toCodec rows ⟨t, some entry⟩).2 := by
  have hsame : (∀ id, Fsm.writes ⟨t, some entry⟩ (.inode id) = none) →
      AttachesLive codec rows (Fsm.apply codec.toCodec rows ⟨t, some entry⟩).2 := by
    intro h
    exact .of_same fun id => Fsm.lookup_apply_of_not_writes codec.toCodec (h id)
  by_cases ha : Fsm.Accepts codec.toCodec rows ⟨t, some entry⟩
  · cases hentry with
    | update raw chunk | tombstone references reason now hraw
    | purge references id catalogRaw chunkRaw tombstoneRaw _ =>
      exact hsame fun id => not_writes_fenced rfl (by simp [BatchOp.key])
    | degrade id value =>
      exact hsame fun id' => patchOf_ops _ [.set (.extentMeta id) value] (by simp [BatchOp.key])
    | allocate allotted hinode => exact live_of_allocation hinode rfl ha
    | catalog state expectedRaftTerm =>
      exact hsame fun id => writes_catalog state t expectedRaftTerm not_false nofun
    | apply hkeys hfree =>
      intro c hc
      obtain ⟨ops, hmap, hchanges, hprepare⟩ := public_batch t hkeys
      rw [Fsm.apply_of_accepts codec.toCodec ha, hchanges, foldl_map] at hc
      refine live_of_prepare (hprepare ha) ?_ hc
      intro op hop id hkey
      have hmem : Key.tombstone id ∈ ops.map BatchOp.key := mem_map.mpr ⟨op, hop, hkey⟩
      rw [hmap] at hmem
      exact Bool.false_ne_true (hfree _ hmem).symm
  · rw [Fsm.apply_of_refused codec.toCodec ha]
    exact .of_same fun id => rfl

/-! ### Whatever is interleaved -/

/-- What a request may do to the rows. -/
def KeepsFrozen (codec : ChunkCodec V) (rows rows' : Rows V) : Prop :=
  (Frozen codec rows → Frozen codec rows') ∧ AttachesLive codec rows rows'

theorem keepsFrozen_of_known {r : Request V} (rows : Rows V) (h : Known codec True r) :
    KeepsFrozen codec rows (answer codec r rows).2 := by
  cases r with
  | propose log =>
    obtain ⟨t, entry⟩ := log
    obtain ⟨entry, rfl, hentry⟩ := h
    exact ⟨fun hrows => hrows.apply t hentry, attachesLive_apply t hentry⟩
  | _ => exact ⟨id, AttachesLive.of_same fun id => rfl⟩

/--
**A tombstone freezes its chunk.**  From a store in which every tombstone has its chunk, and
for calls that come in and are interleaved in any way: every tombstone has its chunk, with
the size and the replicas the tombstone was given, and no step gives an inode a chunk that
has a tombstone.
-/
theorem tombstone_freezes {rows : Rows V} (hrows : Frozen codec rows)
    {events : List (Event (Call V))} {s : Service V}
    (hrun : Guarded.run (Service.next codec) events ⟨rows, []⟩ = some s) :
    Frozen codec s.state ∧ ∀ e s', s.next codec e = some s' →
      AttachesLive codec s.state s'.state := by
  have hprog : ∀ (call : Call V) (rows : Rows V), Ensures (answer codec) (fun _ _ => True)
      (fun rows rows' => Frozen codec rows → Frozen codec rows') (KeepsFrozen codec)
      (call.action codec) (fun _ _ => True) rows := by
    intro call rows
    refine .of_only (known_action call fun _ _ _ => trivial) ?_
    intro r rows hr _
    exact keepsFrozen_of_known rows hr
  have hmeets : ∀ q, Guarded.Meets (Service.next codec) (Pool.Allows fun _ _ => True) events q :=
    Guarded.Meets.of_forall (fun q e => Pool.allows_true q e) events
  refine ⟨?_, ?_⟩
  · have hreach := Pool.run_reaches (fun _ h => h) (fun _ _ _ h h' h'' => h' (h h''))
      (fun _ _ _ h => h.1) hprog (hmeets _) hrun
    exact hreach.2 hrows
  intro e s' hstep
  have hkept := Pool.run_kept (fun _ h => h) (fun _ _ _ h h' h'' => h' (h h''))
    (fun _ _ _ h => h.1) hprog (hmeets _) hrun (Pool.allows_true s e) hstep
  rcases hkept with hsame | ⟨_, _, _, _, hguar⟩
  · rw [hsame]
    exact .of_same fun id => rfl
  · exact hguar.2

/-- A chunk that has been created. -/
def createdChunk : Rows Stored :=
  (∅ : Rows Stored).insert (.chunk 7) (.chunk ⟨7, 10, .created, [], 0⟩)

/-- A chunk is committed and deleted at the same time; the deletion comes first. -/
def commitAfterDelete : List (Event (Call Stored)) :=
  [.start ⟨1, .commitChunk 7 5⟩, .start ⟨1, .tombstoneChunk 7 ['r'] 1⟩, .advance 0] ++
    List.replicate 6 (.advance 1) ++ [.advance 0]

theorem tombstone_freezes_created_chunk :
    ∃ s, Guarded.run (Service.next Stored.codec) commitAfterDelete ⟨createdChunk, []⟩ = some s ∧
      s.state.lookup (.tombstone 7) ≠ none ∧ Frozen Stored.codec s.state ∧
      ∀ e s', s.next Stored.codec e = some s' → AttachesLive Stored.codec s.state s'.state := by
  have hrows : Frozen Stored.codec createdChunk := by
    intro id value hvalue
    rw [createdChunk, Finmap.lookup_insert_of_ne _ Key.noConfusion, Finmap.lookup_empty] at hvalue
    cases hvalue
  have hdeleted : (Guarded.run (Service.next Stored.codec) commitAfterDelete
      ⟨createdChunk, []⟩).map (fun s => s.state.lookup (.tombstone 7) != none) = some true := by
    decide +kernel
  obtain ⟨s, hrun, hs⟩ := Option.map_eq_some_iff.mp hdeleted
  obtain ⟨hfrozen, hattaches⟩ := tombstone_freezes hrows hrun
  exact ⟨s, hrun, bne_iff_ne.mp hs, hfrozen, hattaches⟩

end Nufs.Chunks
