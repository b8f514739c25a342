/-
What rebalancing leaves of a chunk.

The row loses every replica on the source node and gains one that has no data yet and is
shard 0 whatever it replaces.  So a move is harmless only for a chunk with another Ready
replica and none on the target, and for a stripe only if it moves shard 0 alone.
-/
import Nufs.Metadata.Rebalance

namespace Nufs.Rebalance

open List Option
open Nufs.Metadata (ChunkID)
open Nufs.Chunks (NodeID)
open Nufs.Ec (ChunkMeta)

/-- A copy to read from and no node twice; of a stripe, every shard index once. -/
def Available (chunk : ChunkMeta) : Prop :=
  (chunk.ecGroup = none →
    (∃ r ∈ chunk.replicas, r.state = .ready) ∧ (chunk.replicas.map (·.nodeID)).Nodup) ∧
  ∀ g ∈ chunk.ecGroup, ∀ i < g.config.dataShards + g.config.parityShards,
    chunk.replicas.countP (fun r => r.shardIndex = (i : Int)) = 1

/-- The store takes what the plan asks of it. -/
def Succeeds (s : Registry) (plan : MigrationPlan) : Prop :=
  plan.chunkID ≠ 0 → plan.repairStored = true ∧
    (Registry.migrateChunkReplica { s with repairs := plan.chunkID :: s.repairs } plan.chunkID
      plan.sourceNode plan.targetNode plan.updateStored).isOk
  deriving Decidable

/-- **The condition on a plan** that takes effect, in the rows it finds. -/
def Harmless (s : Registry) (plan : MigrationPlan) : Prop :=
  plan.chunkID ≠ 0 ∧ Succeeds s plan → ∀ chunk ∈ s.chunks plan.chunkID,
    (chunk.ecGroup = none →
      (∃ r ∈ chunk.replicas, r.nodeID ≠ plan.sourceNode ∧ r.state = .ready) ∧
      ∀ r ∈ chunk.replicas, r.nodeID = plan.targetNode → plan.targetNode = plan.sourceNode) ∧
    (chunk.ecGroup ≠ none → ∀ r ∈ chunk.replicas, r.nodeID = plan.sourceNode ↔ r.shardIndex = 0)

instance (s : Registry) (plan : MigrationPlan) : Decidable (Harmless s plan) :=
  inferInstanceAs (Decidable (_ ∧ _ → ∀ chunk ∈ s.chunks plan.chunkID, _))

variable {s : Registry} {plan : MigrationPlan} {chunk : ChunkMeta} {toAddr : List Char}

theorem Available.move (h : Available chunk) (hplan : Harmless s plan)
    (htakes : plan.chunkID ≠ 0 ∧ Succeeds s plan) (hchunk : s.chunks plan.chunkID = some chunk) :
    Available (migrated chunk plan.sourceNode plan.targetNode toAddr) := by
  obtain ⟨hcopies, hstripe⟩ := hplan htakes chunk hchunk
  refine ⟨fun hgroup => ?_, fun g hg i hi => ?_⟩
  · obtain ⟨⟨r, hr, hother, hready⟩, hfree⟩ := hcopies hgroup
    refine ⟨⟨r, by simp [migrated, hr, hother], hready⟩, ?_⟩
    rw [migrated, map_append, nodup_append]
    refine ⟨(h.1 hgroup).2.sublist (filter_sublist.map _), nodup_singleton _, ?_⟩
    grind
  have hmoved := hstripe (ne_none_iff_exists'.mpr ⟨g, hg⟩)
  rw [migrated, countP_append, countP_filter]
  by_cases hzero : i = 0
  · rw [countP_eq_zero.mpr fun r hr => ?_]
    · simp [hzero]
    · simpa [hzero] using (hmoved r hr).mpr
  rw [countP_congr (q := fun r => r.shardIndex = (i : Int)) fun r hr => ?_, h.2 g hg i hi]
  · simp
    omega
  · have hshard := hmoved r hr
    grind

theorem updateChunk_ok {found : ChunkMeta} {stored : Bool} {s' : Registry}
    (h : s.updateChunk found stored = .ok s') :
    s'.chunks = Function.update s.chunks found.id (some found) := by
  unfold Registry.updateChunk at h
  split_ifs at h
  rw [← Except.ok.inj h]

theorem migrateChunkReplica_ok {id : ChunkID} {fromNode toNode : NodeID} {stored : Bool}
    {s' : Registry} (h : s.migrateChunkReplica id fromNode toNode stored = .ok s') :
    ∃ chunk toAddr, s.chunks id = some chunk ∧
      s'.chunks = Function.update s.chunks id (some (migrated chunk fromNode toNode toAddr)) := by
  unfold Registry.migrateChunkReplica at h
  cases hchunk : s.chunks id with
  | none =>
    rw [hchunk] at h
    cases h
  | some chunk =>
    rw [hchunk] at h
    dsimp only at h
    split_ifs at h
    refine ⟨chunk, (s.nodes.lookup toNode).getD [], rfl, ?_⟩
    rw [updateChunk_ok h, ← s.keyed id chunk hchunk]
    rfl

/-- What a plan does to the rows: nothing, or it rewrites the one row it names. -/
theorem Registry.executePlan_cases (plan : MigrationPlan) :
    ((s.executePlan plan).chunks = s.chunks ∧ (plan.chunkID = 0 ∨ ¬ Succeeds s plan)) ∨
      (plan.chunkID ≠ 0 ∧ Succeeds s plan) ∧ ∃ chunk toAddr, s.chunks plan.chunkID = some chunk ∧
        (s.executePlan plan).chunks = Function.update s.chunks plan.chunkID
          (some (migrated chunk plan.sourceNode plan.targetNode toAddr)) := by
  unfold Registry.executePlan
  by_cases hzero : plan.chunkID = 0
  · exact .inl ⟨by rw [if_pos (.inl hzero)], .inl hzero⟩
  by_cases hrepair : plan.repairStored = false
  · refine .inl ⟨by rw [if_pos (.inr hrepair)], .inr fun hok => ?_⟩
    exact Bool.false_ne_true (hrepair.symm.trans (hok hzero).1)
  rw [if_neg (not_or_intro hzero hrepair)]
  dsimp only
  split
  · rename_i s' hok
    obtain ⟨chunk, toAddr, hchunk, hrows⟩ := migrateChunkReplica_ok hok
    have hsucceeds : Succeeds s plan :=
      fun _ => ⟨Bool.not_eq_false _ ▸ hrepair, by rw [hok]; rfl⟩
    exact .inr ⟨⟨hzero, hsucceeds⟩, chunk, toAddr, hchunk, hrows⟩
  · rename_i e herror
    refine .inl ⟨rfl, .inr fun hok => ?_⟩
    have hfine := (hok hzero).2
    rw [herror] at hfine
    cases hfine

/--
**Rebalancing keeps chunks available.**  If every plan of a list is harmless in the rows it
finds, a chunk that was available is so after the list.
-/
theorem executePlans_available (s : Registry) (plans : List MigrationPlan)
    (hmeets : Guarded.Meets (fun s plan => some (s.executePlan plan)) Harmless plans s)
    (id : ChunkID) (chunk : ChunkMeta) (hchunk : s.chunks id = some chunk)
    (havail : Available chunk) :
    ∃ after, (s.executePlans plans).chunks id = some after ∧ after.ecGroup = chunk.ecGroup ∧
      Available after := by
  induction plans generalizing s chunk with
  | nil => exact ⟨chunk, hchunk, rfl, havail⟩
  | cons plan plans ih =>
    have hrest := hmeets.2 _ rfl
    rcases s.executePlan_cases plan with ⟨hsame, _⟩ | ⟨htakes, moved, toAddr, hmoved, hrows⟩
    · exact ih (s.executePlan plan) hrest chunk (by rw [hsame, hchunk]) havail
    by_cases hid : id = plan.chunkID
    · subst hid
      obtain rfl : chunk = moved := some.inj (hchunk.symm.trans hmoved)
      exact ih _ hrest (migrated chunk plan.sourceNode plan.targetNode toAddr)
        (by rw [hrows, Function.update_self]) (havail.move hmeets.1 htakes hchunk)
    · exact ih _ hrest chunk (by rw [hrows, Function.update_of_ne hid, hchunk]) havail

/-- Chunk 7 with Ready replicas on some of the nodes 1, 2 and 3. -/
def readyOn (nodes : List NodeID) : Registry where
  chunks id := if id = 7 then
    some ⟨7, 0, .ready, nodes.map (⟨·, ['a'], .ready, [], 0⟩), none, 0, 0, []⟩ else none
  tombstones := []
  nodes := [(1, ['a']), (2, ['b']), (3, ['c'])]
  repairs := []
  keyed id chunk h := by
    split_ifs at h with hid
    rw [← some.inj h, hid]

theorem executePlans_available_mirrored :
    ∃ after, ((readyOn [1, 3]).executePlans [⟨7, 1, 2, true, true⟩]).chunks 7 = some after ∧
      after.ecGroup = none ∧ Available after :=
  executePlans_available (readyOn [1, 3]) [⟨7, 1, 2, true, true⟩]
    (by decide) 7 _ rfl (by simp [Available])

/-- The only Ready replica of a chunk is dropped for one that has no data. -/
theorem only_ready_replica_dropped :
    ((readyOn [1]).chunks 7).map (·.replicas.map fun r => (r.nodeID, r.state)) =
        some [(1, .ready)] ∧ (((readyOn [1]).executePlans [⟨7, 1, 2, true, true⟩]).chunks 7).map
        (·.replicas.map fun r => (r.nodeID, r.state)) = some [(2, .syncing)] := by
  decide

/-! ### Taking a node out of service -/

/-- The row of the chunk lists the node as a replica. -/
def Registry.Lists (s : Registry) (nodeID : NodeID) (id : ChunkID) : Prop :=
  ∃ chunk ∈ s.chunks id, ∃ r ∈ chunk.replicas, r.nodeID = nodeID

variable {nodeID : NodeID} {id : ChunkID} {plans : List MigrationPlan}

theorem lists_executePlan (hsource : plan.sourceNode = nodeID) (htarget : plan.targetNode ≠ nodeID)
    (hok : Succeeds s plan) : (s.executePlan plan).Lists nodeID id ↔
      s.Lists nodeID id ∧ (id = 0 ∨ id ≠ plan.chunkID) := by
  unfold Registry.Lists
  rcases s.executePlan_cases plan with ⟨hsame, hwhy⟩ | ⟨⟨hzero, -⟩, chunk, toAddr, hchunk, hrows⟩
  · have hid := hwhy.resolve_right (not_not_intro hok)
    rw [hsame, hid]
    simp [em]
  rw [hrows]
  by_cases hid : id = plan.chunkID
  · subst hid
    simp [migrated, hsource, htarget, hzero]
  · simp [hid]

theorem lists_executePlans
    (hplans : ∀ plan ∈ plans, plan.sourceNode = nodeID ∧ plan.targetNode ≠ nodeID)
    (hok : Guarded.Meets (fun s plan => some (s.executePlan plan)) Succeeds plans s) :
    (s.executePlans plans).Lists nodeID id ↔
      s.Lists nodeID id ∧ (id = 0 ∨ id ∉ plans.map (·.chunkID)) := by
  induction plans generalizing s with
  | nil => simp [Registry.executePlans]
  | cons plan plans ih =>
    obtain ⟨hsource, htarget⟩ := hplans plan mem_cons_self
    have hrest := ih (fun p hp => hplans p (.tail _ hp)) (hok.2 _ rfl)
    refine hrest.trans ?_
    rw [lists_executePlan hsource htarget hok.1, map_cons, mem_cons]
    tauto

theorem mem_chunksByNode {c : Cluster} : id ∈ c.chunksByNode nodeID ↔ c.Lists nodeID id := by
  simp only [Cluster.chunksByNode, Registry.Lists, mem_filter, c.scanned]
  cases c.chunks id with
  | none | some chunk => simp

/-- **The condition**: the counter of the node is not below the number of chunks it holds, is
zero if it holds none, and none of them has the ID that plans without a chunk have. -/
def Cluster.Counted (c : Cluster) (nodeID : NodeID) : Prop :=
  ∀ source ∈ c.infos.reverse.find? fun n => n.id = nodeID,
    (c.chunksByNode nodeID).length ≤ source.chunkCount.toNat ∧
      (c.chunksByNode nodeID = [] → source.chunkCount ≤ 0) ∧ 0 ∉ c.chunksByNode nodeID

theorem mem_candidates {nodes : List NodeInfo} {n : NodeInfo} :
    n ∈ candidates nodeID nodes ↔ n ∈ nodes ∧ n.id ≠ nodeID ∧ n.state = .online := by
  rw [candidates, KeySort.mem_sortBy]
  simp

/-- With a node to go to, there is a plan for every chunk that the node has counted. -/
theorem planDecommission_ok {nodes : List NodeInfo} {source : NodeInfo}
    (hsource : nodes.reverse.find? (fun n => n.id = nodeID) = some source)
    (hother : ∃ n ∈ nodes, n.id ≠ nodeID ∧ n.state = .online) :
    ∃ plans, planDecommission nodeID nodes = .ok plans ∧ plans.length = source.chunkCount.toNat ∧
      ∀ plan ∈ plans, plan.sourceNode = nodeID ∧ plan.targetNode ≠ nodeID := by
  obtain ⟨n, hn⟩ := hother
  have htargets : candidates nodeID nodes ≠ [] := ne_nil_of_mem (mem_candidates.mpr hn)
  unfold planDecommission
  rw [hsource]
  dsimp only
  rw [dif_neg htargets]
  refine ⟨_, rfl, by simp, ?_⟩
  intro plan hplan
  obtain ⟨i, _, rfl⟩ := mem_map.mp hplan
  exact ⟨rfl, (mem_candidates.mp (get_mem _ _)).2.1⟩

theorem assign_eq_none {chunks : List ChunkID} :
    assign chunks plans = none ↔ plans ≠ [] ∧ chunks = [] := by
  unfold assign
  split_ifs with hplans hchunks
  · simp [hplans]
  · simp [hplans, hchunks]
  · simp [hchunks]

theorem mem_assigned {chunks : List ChunkID} {assigned : List MigrationPlan}
    (h : assign chunks plans = some assigned) : plan ∈ assigned ↔
      ∃ (i : Nat) (old : MigrationPlan) (id : ChunkID), plans[i]? = some old ∧
        chunks[i % chunks.length]? = some id ∧ plan = { old with chunkID := id } := by
  unfold assign at h
  split_ifs at h with hplans hchunks
  · obtain rfl := some.inj h
    simp [hplans]
  · obtain rfl := some.inj h
    have hpos := length_pos_iff.mpr hchunks
    rw [mem_mapIdx]
    constructor
    · rintro ⟨i, hi, rfl⟩
      exact ⟨i, plans[i], _, List.getElem?_eq_getElem hi,
        List.getElem?_eq_getElem (Nat.mod_lt i hpos), rfl⟩
    · rintro ⟨i, old, id, hold, hid, rfl⟩
      obtain ⟨hi, rfl⟩ := List.getElem?_eq_some_iff.mp hold
      obtain ⟨hlt, rfl⟩ := List.getElem?_eq_some_iff.mp hid
      exact ⟨i, hi, rfl⟩

/-- The chunks are handed out in turn, so the plans reach all of them if they are as many. -/
theorem subset_assigned {chunks : List ChunkID} {assigned : List MigrationPlan}
    (hnodup : chunks.Nodup) (h : assign chunks plans = some assigned) :
    (∀ id ∈ chunks, id ∈ assigned.map (·.chunkID)) ↔ chunks.length ≤ plans.length := by
  constructor
  · intro hall
    by_contra! hlt
    obtain ⟨plan, hplan, hid⟩ := mem_map.mp (hall _ (getElem_mem hlt))
    obtain ⟨i, old, id, hold, hturn, rfl⟩ := (mem_assigned h).mp hplan
    obtain ⟨hi, _⟩ := List.getElem?_eq_some_iff.mp hold
    obtain ⟨hmod, rfl⟩ := List.getElem?_eq_some_iff.mp hturn
    have hsame := (hnodup.getElem_inj_iff).mp hid
    have hle := Nat.mod_le i chunks.length
    omega
  · intro hle id hid
    obtain ⟨i, hi, rfl⟩ := getElem_of_mem hid
    refine mem_map.mpr ⟨{ plans[i] with chunkID := chunks[i] }, (mem_assigned h).mpr ?_, rfl⟩
    refine ⟨i, plans[i], chunks[i], List.getElem?_eq_getElem (by omega), ?_, rfl⟩
    rw [Nat.mod_eq_of_lt hi, List.getElem?_eq_getElem hi]

/--
**When a decommission is complete.**  With another node online and all calls of the store
succeeding, a decommission does not panic and leaves no row that lists the node, exactly if
the counter of the node covers its chunks and none of them has the ID 0.
-/
theorem executeDecommission_complete (c : Cluster) (nodeID : NodeID)
    (hother : ∃ n ∈ c.infos, n.id ≠ nodeID ∧ n.state = .online)
    (hcalls : ∀ plans, c.decommissionPlans nodeID = .ok (some plans) →
      Guarded.Meets (fun s plan => some (s.executePlan plan)) Succeeds plans c.toRegistry) :
    (∀ outcome, c.executeDecommission nodeID = .ok outcome →
      ∃ s, outcome = some s ∧ ∀ id, ¬ s.Lists nodeID id) ↔ c.Counted nodeID := by
  unfold Cluster.executeDecommission Cluster.Counted
  unfold Cluster.decommissionPlans at hcalls ⊢
  cases hsource : c.infos.reverse.find? fun n => n.id = nodeID with
  | none => simp [planDecommission, hsource, Except.map]
  | some source =>
    obtain ⟨plans, hplans, hlength, hmoves⟩ := planDecommission_ok hsource hother
    rw [hplans] at hcalls ⊢
    simp only [Except.map, Except.ok.injEq, forall_eq', mem_some_iff]
    cases hassign : assign (c.chunksByNode nodeID) plans with
    | none =>
      obtain ⟨hsome, hempty⟩ := assign_eq_none.mp hassign
      have hpos := length_pos_iff.mpr hsome
      have hcounted : ¬ source.chunkCount ≤ 0 := by omega
      simp [hempty, hcounted]
    | some assigned =>
      have hrows : ∀ id, (c.executePlans assigned).Lists nodeID id ↔
          c.Lists nodeID id ∧ (id = 0 ∨ id ∉ assigned.map (·.chunkID)) := by
        intro id
        refine lists_executePlans ?_ (hcalls assigned (congrArg Except.ok hassign))
        intro plan hplan
        obtain ⟨i, old, _, hold, _, rfl⟩ := (mem_assigned hassign).mp hplan
        exact hmoves old (mem_of_getElem? hold)
      have hempty : c.chunksByNode nodeID = [] → source.chunkCount ≤ 0 := by
        intro hnil
        by_contra hpos
        have hne : plans ≠ [] := length_pos_iff.mp (by omega)
        simp [assign_eq_none.mpr ⟨hne, hnil⟩] at hassign
      have hall := subset_assigned (c.distinct.filter _) hassign
      rw [hlength] at hall
      simp only [map_some, Option.some.injEq, exists_eq_left', hrows, ← mem_chunksByNode]
      constructor
      · intro hnone
        refine ⟨hall.mp fun id hid => ?_, hempty, fun hzero => hnone 0 ⟨hzero, .inl rfl⟩⟩
        by_contra hmissing
        exact hnone id ⟨hid, .inr hmissing⟩
      · rintro ⟨hle, _, hzero⟩ id ⟨hid, rfl | hmissing⟩
        · exact hzero hid
        · exact hmissing (hall.mpr hle id hid)

/-- Two nodes, of which the first reports this many chunks and holds chunk 7 or none. -/
def twoNodes (held : List NodeID) (chunkCount : Int) : Cluster where
  toRegistry := { readyOn held with nodes := [(1, ['a']), (2, ['b'])] }
  infos := [⟨1, ['a'], 9, 0, chunkCount, .draining⟩, ⟨2, ['b'], 9, 0, 0, .online⟩]
  chunkIDs := [7]
  addressed := rfl
  distinct := nodup_singleton 7
  scanned id := by simp [readyOn]

theorem executeDecommission_complete_counted : ∃ s,
    (twoNodes [1] 1).executeDecommission 1 = .ok (some s) ∧ ∀ id, ¬ s.Lists 1 id := by
  have hcounted : (twoNodes [1] 1).Counted 1 := by
    intro source hsource
    cases hsource
    decide
  have hcomplete := executeDecommission_complete (twoNodes [1] 1) 1 (by simp [twoNodes])
    fun plans h => by
      cases h
      exact ⟨fun _ => ⟨rfl, rfl⟩, fun _ _ => trivial⟩
  obtain ⟨s, heq, hnone⟩ := hcomplete.mpr hcounted _ rfl
  exact ⟨s, congrArg Except.ok heq, hnone⟩

/-- A node that reports a chunk and holds none makes the index panic; one that holds a chunk
and reports none keeps it. -/
theorem executeDecommission_miscounted :
    (twoNodes [] 1).executeDecommission 1 = .ok none ∧
      ∃ s, (twoNodes [1] 0).executeDecommission 1 = .ok (some s) ∧ s.Lists 1 7 :=
  ⟨rfl, _, rfl, _, rfl, _, .head _, rfl⟩

end Nufs.Rebalance
