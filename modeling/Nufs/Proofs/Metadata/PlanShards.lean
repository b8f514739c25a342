/-
When the planner of a stripe ends, and what it plans.

A turn of the planner's loop takes one more disk from the queue of a node, or passes it
by.  What is planned is therefore what the queues have given, and a queue gives at most
three disks.  As long as some queue can give one more disk its turn comes; once all of
them are empty and nine shards are not reached, the loop passes them by forever.
-/
import Mathlib.Algebra.Order.BigOperators.Group.List
import Mathlib.Algebra.Order.Group.Nat
import Nufs.Lib.RoundRobin
import Nufs.Metadata.EcLifecycle

namespace Nufs.Ec

open List KeySort

/-! ### What the queues can give -/

/-- The disk of a shard. -/
def ECShard.disk (sh : ECShard) : ECDisk := ⟨sh.diskID, sh.nodeID⟩

/-- How many shards the nodes of these disks can take, at most three each. -/
def capacity (disks : List ECDisk) : Nat :=
  ((disks.map ECDisk.nodeID).dedup.map fun n =>
    min maxShardsPerMachine ((disks.map ECDisk.nodeID).count n)).sum

namespace NodeQueue

/-- How many shards the node of a queue can take. -/
def room (q : NodeQueue) : Nat := min maxShardsPerMachine q.disks.length

/-- The disks that have been taken from a queue. -/
def taken (q : NodeQueue) : List ECDisk := q.disks.take q.nextDisk

/-- The counters of a queue belong together. -/
structure Counted (q : NodeQueue) : Prop where
  same : q.used = q.nextDisk
  within : q.used ≤ q.room

variable {q : NodeQueue}

theorem Counted.length_taken (h : q.Counted) : q.taken.length = q.used := by
  have hwithin := h.within
  rw [room] at hwithin
  rw [taken, length_take, ← h.same]
  omega

/-- The queue after a disk has been taken. -/
def advance (q : NodeQueue) : NodeQueue :=
  { q with used := q.used + 1, nextDisk := q.nextDisk + 1 }

theorem Counted.advance (h : q.Counted) (hroom : q.used < q.room) : q.advance.Counted :=
  ⟨congrArg (· + 1) h.same, hroom⟩

theorem taken_advance {d : ECDisk} (h : q.disks[q.nextDisk]? = some d) :
    q.advance.taken = q.taken ++ [d] := by
  simp only [taken, NodeQueue.advance, take_add_one, h, Option.toList_some]

end NodeQueue

/-- What all the queues can give. -/
def roomOf (queues : List NodeQueue) : Nat := (queues.map NodeQueue.room).sum

/-! ### The loop -/

/-- The queues and the plan in the middle of the loop: the plan holds the disks that have
been taken, numbered in the order of the turns. -/
structure Filling (queues : List NodeQueue) (placed : Nat) (plan : List ECShard) : Prop where
  counted : ∀ q ∈ queues, q.Counted
  perm : (plan.map ECShard.disk).Perm (queues.flatMap NodeQueue.taken)
  indices : plan.map ECShard.index = (List.range placed).map Int.ofNat

namespace Filling

variable {queues : List NodeQueue} {placed : Nat} {plan : List ECShard}

section

variable (h : Filling queues placed plan)
include h

theorem length_plan : plan.length = placed := by
  have := congrArg List.length h.indices
  simpa using this

theorem placed_eq : placed = (queues.map NodeQueue.used).sum := by
  have hlen := h.perm.length_eq
  rw [length_map, h.length_plan, length_flatMap] at hlen
  rw [hlen]
  congr 1
  exact map_congr_left fun q hq => (h.counted q hq).length_taken

theorem placed_le : placed ≤ roomOf queues := by
  rw [h.placed_eq]
  exact sum_le_sum fun q hq => (h.counted q hq).within

/-- While the queues have room for more than is placed, one of them has. -/
theorem exists_open (hroom : placed < roomOf queues) :
    ∃ (j : Nat) (q : NodeQueue), queues[j]? = some q ∧ q.used < q.room := by
  by_contra hnone
  push Not at hnone
  have hle : roomOf queues ≤ (queues.map NodeQueue.used).sum := by
    refine sum_le_sum fun q hq => ?_
    obtain ⟨j, hj⟩ := List.mem_iff_getElem?.mp hq
    exact hnone j q hj
  rw [← h.placed_eq] at hle
  omega

variable {q : NodeQueue} {disks : List ECDisk}

/-- A turn that takes a disk. -/
theorem place {j : Nat} {d : ECDisk} (hq : queues[j]? = some q)
    (hused : q.used < maxShardsPerMachine) (hd : q.disks[q.nextDisk]? = some d) :
    Filling (queues.set j q.advance) (placed + 1)
      (plan ++ [{ index := placed, nodeID := d.nodeID, diskID := d.diskID }]) := by
  have hcounted := h.counted q (List.mem_iff_getElem?.mpr ⟨j, hq⟩)
  have hlt : q.nextDisk < q.disks.length := (List.getElem?_eq_some_iff.mp hd).1
  have hroom : q.used < q.room := by
    have := hcounted.same
    rw [NodeQueue.room]
    omega
  refine ⟨fun q' hq' => ?_, ?_, ?_⟩
  · rcases mem_or_eq_of_mem_set hq' with hmem | rfl
    · exact h.counted q' hmem
    · exact hcounted.advance hroom
  · rw [map_append]
    exact (h.perm.append_right _).trans
      (RoundRobin.perm_flatMap_set hq (NodeQueue.taken_advance hd)).symm
  · simp [h.indices, range_succ]

end

end Filling

variable {queues : List NodeQueue} {placed : Nat} {plan : List ECShard}

/-- What does not depend on the counters is the same after a disk has been taken. -/
theorem map_set_advance {α : Type} (f : NodeQueue → α) {j : Nat}
    (hq : queues[j]? = some q) (hf : f q.advance = f q) :
    (queues.set j q.advance).map f = queues.map f := by
  have hget : (queues.map f)[j]? = some (f q) := by rw [List.getElem?_map, hq, Option.map_some]
  obtain ⟨hlt, heq⟩ := List.getElem?_eq_some_iff.mp hget
  rw [map_set, hf, ← heq]
  exact set_getElem_self hlt

theorem roomOf_set {j : Nat} (hq : queues[j]? = some q) :
    roomOf (queues.set j q.advance) = roomOf queues :=
  congrArg List.sum (map_set_advance NodeQueue.room hq rfl)

/-- What a turn does while shards are missing: a disk is taken from the queue whose turn it
is, or the queue gives nothing and is passed by. -/
theorem placeShards_turn {i : Nat} (hplaced : placed < totalShards)
    (hq : queues[i % queues.length]? = some q) :
    (∃ d, q.disks[q.nextDisk]? = some d ∧ q.used < maxShardsPerMachine ∧
      ∀ turns, placeShards (turns + 1) queues i placed plan =
        placeShards turns (queues.set (i % queues.length) q.advance) (i + 1) (placed + 1)
          (plan ++ [{ index := placed, nodeID := d.nodeID, diskID := d.diskID }])) ∨
    ((maxShardsPerMachine ≤ q.used ∨ q.disks.length ≤ q.nextDisk) ∧
      ∀ turns, placeShards (turns + 1) queues i placed plan =
        placeShards turns queues (i + 1) placed plan) := by
  by_cases hused : maxShardsPerMachine ≤ q.used
  · refine .inr ⟨.inl hused, fun turns => ?_⟩
    simp only [placeShards, if_pos hplaced, hq, if_pos hused]
  cases hd : q.disks[q.nextDisk]? with
  | none =>
    refine .inr ⟨.inr (List.getElem?_eq_none_iff.mp hd), fun turns => ?_⟩
    simp only [placeShards, if_pos hplaced, hq, if_neg hused, hd]
  | some d =>
    refine .inl ⟨d, rfl, Nat.lt_of_not_le hused, fun turns => ?_⟩
    simp only [placeShards, if_pos hplaced, hq, if_neg hused, hd, NodeQueue.advance]

/-- What the loop returns is a full plan from queues with as much room as at the start. -/
theorem filling_of_placeShards {turns : Nat} {i : Nat} {full : List ECShard}
    (h : Filling queues placed plan) (hle : placed ≤ totalShards)
    (hrun : placeShards turns queues i placed plan = some full) :
    ∃ queues', Filling queues' totalShards full ∧ roomOf queues' = roomOf queues ∧
      queues'.map NodeQueue.disks = queues.map NodeQueue.disks := by
  induction turns generalizing queues i placed plan with
  | zero => simp [placeShards] at hrun
  | succ turns ih =>
    by_cases hplaced : placed < totalShards
    · cases hq : queues[i % queues.length]? with
      | none => simp [placeShards, hplaced, hq] at hrun
      | some q =>
        rcases placeShards_turn hplaced hq with ⟨d, hd, hused, heq⟩ | ⟨-, heq⟩
        · rw [heq] at hrun
          obtain ⟨queues', hfill, hroom, hdisks⟩ := ih (h.place hq hused hd) hplaced hrun
          exact ⟨queues', hfill, hroom.trans (roomOf_set hq),
            hdisks.trans (map_set_advance NodeQueue.disks hq rfl)⟩
        · rw [heq] at hrun
          exact ih h hle hrun
    · rw [placeShards, if_neg hplaced] at hrun
      obtain rfl : plan = full := by simpa using hrun
      obtain rfl : placed = totalShards := by omega
      exact ⟨queues, h, rfl, rfl⟩

/-- **The loop ends** where the queues have room for nine shards. -/
theorem exists_placeShards (h : Filling queues placed plan) (hle : placed ≤ totalShards)
    (hroom : totalShards ≤ roomOf queues) (i : Nat) :
    ∃ turns full, placeShards turns queues i placed plan = some full := by
  obtain ⟨missing, hmissing⟩ : ∃ missing, placed + missing = totalShards :=
    ⟨totalShards - placed, by omega⟩
  -- Outer induction: on the shards still to place.  Inside it the turns are followed until
  -- one of them takes a disk.
  induction missing generalizing queues placed plan i with
  | zero => exact ⟨1, plan, by rw [placeShards, if_neg (by omega)]⟩
  | succ missing ih =>
    have hplaced : placed < totalShards := by omega
    obtain ⟨j, open', hj, hopen⟩ := h.exists_open (by omega)
    have hjlt : j < queues.length := (List.getElem?_eq_some_iff.mp hj).1
    have htake : ∀ i q, queues[i % queues.length]? = some q →
        (∃ turns full, placeShards turns queues i placed plan = some full) ∨
        ((maxShardsPerMachine ≤ q.used ∨ q.disks.length ≤ q.nextDisk) ∧
          ∀ turns, placeShards (turns + 1) queues i placed plan =
            placeShards turns queues (i + 1) placed plan) := by
      intro i q hq
      rcases placeShards_turn hplaced hq with ⟨d, hd, hused, heq⟩ | hpassed
      · obtain ⟨turns, full, hrun⟩ := ih (h.place hq hused hd) hplaced
          (by rw [roomOf_set hq]; exact hroom) (i + 1) (by omega)
        exact .inl ⟨turns + 1, full, (heq turns).trans hrun⟩
      · exact .inr hpassed
    refine RoundRobin.at_every_turn
      (ρ := fun i => ∃ turns full, placeShards turns queues i placed plan = some full)
      hjlt (fun i hi => ?_) (fun i hnext => ?_) i
    · rcases htake i open' (by rw [hi, hj]) with hdone | ⟨hfull, -⟩
      · exact hdone
      · have hsame := (h.counted open' (List.mem_iff_getElem?.mpr ⟨j, hj⟩)).same
        rw [NodeQueue.room] at hopen
        omega
    · have hlt : i % queues.length < queues.length := Nat.mod_lt i (by omega)
      rcases htake i _ (List.getElem?_eq_getElem hlt) with hdone | ⟨-, heq⟩
      · exact hdone
      · obtain ⟨turns, full, hrun⟩ := hnext
        exact ⟨turns + 1, full, (heq turns).trans hrun⟩

/-! ### The queues at the start -/

section

variable {disks : List ECDisk}

theorem mem_nodeQueues (h : q ∈ nodeQueues disks) :
    q.used = 0 ∧ q.nextDisk = 0 ∧ ∀ d ∈ q.disks, d.nodeID = q.nodeID := by
  obtain ⟨n, -, rfl⟩ := mem_map.mp h
  refine ⟨rfl, rfl, fun d hd => ?_⟩
  have hmem := mem_sortBy.mp hd
  simpa using (mem_filter.mp hmem).2

theorem nodeQueues_pairwise : (nodeQueues disks).Pairwise fun a b => a.nodeID ≠ b.nodeID := by
  rw [nodeQueues, pairwise_map]
  exact (sortBy_perm _ _).nodup_iff.mpr (nodup_dedup _)

theorem nodeQueues_filling : Filling (nodeQueues disks) 0 [] := by
  refine ⟨fun q hq => ?_, ?_, rfl⟩
  · obtain ⟨hused, hnext, -⟩ := mem_nodeQueues hq
    exact ⟨hused.trans hnext.symm, by omega⟩
  have hnil : (nodeQueues disks).flatMap NodeQueue.taken = [] := by
    rw [flatMap_eq_nil_iff]
    intro q hq
    rw [NodeQueue.taken, (mem_nodeQueues hq).2.1, take_zero]
  rw [hnil]
  exact .nil

theorem roomOf_nodeQueues : roomOf (nodeQueues disks) = capacity disks := by
  rw [roomOf, nodeQueues, capacity, map_map]
  refine ((sortBy_perm _ _).map _).sum_eq.trans ?_
  congr 1
  refine map_congr_left fun n _ => ?_
  show min _ (sortBy _ _).length = _
  rw [(sortBy_perm _ _).length_eq, List.count, countP_map, countP_eq_length_filter]
  rfl

theorem nodup_flatMap_disks (h : disks.Nodup) :
    ((nodeQueues disks).map NodeQueue.disks).flatten.Nodup := by
  rw [nodup_flatten, pairwise_map]
  constructor
  · intro ds hds
    obtain ⟨q, hq, rfl⟩ := mem_map.mp hds
    obtain ⟨n, -, rfl⟩ := mem_map.mp hq
    exact (sortBy_perm _ _).nodup_iff.mpr (h.filter _)
  · refine nodeQueues_pairwise.imp_of_mem fun {a b} ha hb hne d hda hdb => hne ?_
    rw [← (mem_nodeQueues ha).2.2 d hda, ← (mem_nodeQueues hb).2.2 d hdb]

end

/-! ### The plan -/

/-- What a plan has to be: nine shards numbered from zero, each on a disk of its own, and no
node with more than three of them. -/
structure Planned (plan : List ECShard) : Prop where
  indices : plan.map ECShard.index = (List.range totalShards).map Int.ofNat
  nodup : (plan.map ECShard.disk).Nodup
  spread : ∀ n, (plan.map ECShard.nodeID).count n ≤ maxShardsPerMachine

/-- **A full plan is a good one.** -/
theorem Filling.planned (h : Filling queues totalShards plan)
    (hnodup : disks.Nodup)
    (hdisks : queues.map NodeQueue.disks = (nodeQueues disks).map NodeQueue.disks) :
    Planned plan := by
  have htaken : ∀ q : NodeQueue, q.taken.Sublist q.disks := fun q => take_sublist _ _
  refine ⟨h.indices, ?_, fun n => ?_⟩
  · refine h.perm.nodup_iff.mpr ((nodup_flatMap_disks hnodup).sublist ?_)
    rw [← hdisks, ← flatMap_def]
    exact .flatMap_right queues fun q _ => htaken q
  have hcount : (plan.map ECShard.nodeID).count n =
      (plan.map ECShard.disk).countP fun d => d.nodeID == n := by
    rw [List.count, countP_map, countP_map]
    rfl
  rw [hcount, h.perm.countP_eq]
  refine RoundRobin.countP_flatMap_le ?_ fun q hq => ?_
  · -- Disks of the node stand in one of the queues only.
    have hpair : ((nodeQueues disks).map NodeQueue.disks).Pairwise fun ds ds' =>
        ds.countP (fun d => d.nodeID == n) = 0 ∨ ds'.countP (fun d => d.nodeID == n) = 0 := by
      rw [pairwise_map]
      refine nodeQueues_pairwise.imp_of_mem fun {a b} ha hb hne => ?_
      by_cases hn : a.nodeID = n
      · refine .inr (countP_eq_zero.mpr fun d hd => ?_)
        rw [(mem_nodeQueues hb).2.2 d hd, ← hn]
        simpa using hne.symm
      · refine .inl (countP_eq_zero.mpr fun d hd => ?_)
        rw [(mem_nodeQueues ha).2.2 d hd]
        simpa using hn
    rw [← hdisks, pairwise_map] at hpair
    refine hpair.imp fun {a b} hzero => ?_
    have ha := (htaken a).countP_le (p := fun d => d.nodeID == n)
    have hb := (htaken b).countP_le (p := fun d => d.nodeID == n)
    omega
  · have hcounted := h.counted q hq
    have hwithin := hcounted.within
    rw [NodeQueue.room] at hwithin
    have hlen := hcounted.length_taken
    have hle := countP_le_length (p := fun d : ECDisk => d.nodeID == n) (l := q.taken)
    omega

/-- Nine shards with at most three on a node are on three nodes at least. -/
theorem Planned.validate (h : Planned plan) : ∃ machines, validate plan = .ok machines := by
  have hlength : (plan.map ECShard.nodeID).length = totalShards := by
    have := congrArg List.length h.indices
    simpa using this
  have hmachines : minMachines ≤ (plan.map ECShard.nodeID).dedup.length := by
    have hsum := sum_map_count_dedup_eq_length (plan.map ECShard.nodeID)
    have hle := sum_le_card_nsmul
      ((plan.map ECShard.nodeID).dedup.map fun n => (plan.map ECShard.nodeID).count n)
      maxShardsPerMachine (by
        intro k hk
        obtain ⟨n, -, rfl⟩ := mem_map.mp hk
        exact h.spread n)
    rw [hsum, hlength, length_map, Nat.nsmul_eq_mul] at hle
    simp only [totalShards, maxShardsPerMachine, minMachines] at hle ⊢
    omega
  refine ⟨(plan.map ECShard.nodeID).dedup.length, ?_⟩
  rw [Ec.validate]
  simp only [if_neg (Nat.not_lt.mpr hmachines)]
  have hnone : (plan.map ECShard.nodeID).dedup.find?
      (fun n => maxShardsPerMachine < (plan.map ECShard.nodeID).count n) = none := by
    rw [List.find?_eq_none]
    intro n _
    simpa using h.spread n
  simp only [hnone]

/-- What is asked of the planner, for a stripe and candidate disks: it ends; it succeeds on
three nodes with room for nine shards and nowhere else; and its plan is a good one. -/
structure PlansShards (st : ECStripe) (disks : List ECDisk) : Prop where
  ends : ∃ turns, (planShards turns st disks).isSome
  succeeds : (∃ turns st', planShards turns st disks = some (.ok st')) ↔
    minMachines ≤ (disks.map ECDisk.nodeID).dedup.length ∧ totalShards ≤ capacity disks
  plans : ∀ turns st', planShards turns st disks = some (.ok st') → Planned st'.shards

section

variable {st : ECStripe} {disks : List ECDisk}

theorem capacity_le_length : capacity disks ≤ disks.length := by
  have hle : capacity disks ≤
      ((disks.map ECDisk.nodeID).dedup.map (disks.map ECDisk.nodeID).count).sum :=
    sum_le_sum fun n _ => Nat.min_le_right _ _
  rw [sum_map_count_dedup_eq_length, length_map] at hle
  exact hle

/-- With enough nodes and disks the planner does what its loop does. -/
theorem planShards_eq_loop (hstate : st.state = .preparing)
    (hnodes : minMachines ≤ (disks.map ECDisk.nodeID).dedup.length)
    (hlength : totalShards ≤ disks.length) (hnodup : disks.Nodup) (turns : Nat) :
    planShards turns st disks = (placeShards turns (nodeQueues disks) 0 0 []).map fun plan =>
      .ok { st with shards := plan, state := .encoding } := by
  rw [planShards]
  simp only [hstate, ne_eq, not_true_eq_false, if_false, if_neg (Nat.not_lt.mpr hnodes),
    if_neg (Nat.not_lt.mpr hlength)]
  refine Option.map_congr fun plan hplan => ?_
  obtain ⟨queues, hfill, -, hdisks⟩ :=
    filling_of_placeShards nodeQueues_filling (Nat.zero_le _) (Option.mem_def.mp hplan)
  obtain ⟨machines, hvalid⟩ := (hfill.planned hnodup hdisks).validate
  rw [if_neg (not_not_intro hfill.length_plan), hvalid]
  rfl

end

/-- A plan was found only if there is room for it. -/
theorem le_capacity {turns : Nat}
    (h : placeShards turns (nodeQueues disks) 0 0 [] = some plan) :
    totalShards ≤ capacity disks := by
  obtain ⟨queues, hfill, hroom, -⟩ :=
    filling_of_placeShards nodeQueues_filling (Nat.zero_le _) h
  rw [← roomOf_nodeQueues, ← hroom]
  exact hfill.placed_le

/--
**When the planner ends.**  For every list of distinct candidate disks the planner ends,
succeeds where nine shards can be placed and plans well, except where the disks pass its
two checks and the nodes still have no room for nine shards: there its loop never ends.
-/
theorem planShards_ends_iff {st : ECStripe}
    (hstate : st.state = .preparing) (hnodup : disks.Nodup) : PlansShards st disks ↔
      ((disks.map ECDisk.nodeID).dedup.length < minMachines ∨ disks.length < totalShards ∨
        totalShards ≤ capacity disks) := by
  constructor
  · intro h
    by_contra hcond
    push Not at hcond
    obtain ⟨hnodes, hlength, hcapacity⟩ := hcond
    obtain ⟨turns, hends⟩ := h.ends
    rw [planShards_eq_loop hstate hnodes hlength hnodup, Option.isSome_map] at hends
    obtain ⟨plan, hplan⟩ := Option.isSome_iff_exists.mp hends
    exact absurd (le_capacity hplan) (Nat.not_le.mpr hcapacity)
  · intro hcond
    by_cases hchecks : minMachines ≤ (disks.map ECDisk.nodeID).dedup.length ∧
        totalShards ≤ disks.length
    · obtain ⟨hnodes, hlength⟩ := hchecks
      have hcapacity : totalShards ≤ capacity disks := by omega
      obtain ⟨turns, plan, hplan⟩ := exists_placeShards nodeQueues_filling (Nat.zero_le _)
        (by rw [roomOf_nodeQueues]; exact hcapacity) 0
      have hok : planShards turns st disks =
          some (.ok { st with shards := plan, state := .encoding }) := by
        rw [planShards_eq_loop hstate hnodes hlength hnodup, hplan]
        rfl
      refine ⟨⟨turns, by rw [hok]; rfl⟩, ⟨fun _ => ⟨hnodes, hcapacity⟩, fun _ => ⟨_, _, hok⟩⟩, ?_⟩
      intro turns' st' hst'
      rw [planShards_eq_loop hstate hnodes hlength hnodup] at hst'
      obtain ⟨plan', hplan', heq⟩ := Option.map_eq_some_iff.mp hst'
      obtain ⟨queues, hfill, -, hdisks⟩ :=
        filling_of_placeShards nodeQueues_filling (Nat.zero_le _) hplan'
      cases heq
      exact hfill.planned hnodup hdisks
    · -- One of the two checks fails: the planner answers with an error at once.
      obtain ⟨e, herr⟩ : ∃ e, ∀ turns, planShards turns st disks = some (.error e) := by
        by_cases hnodes : (disks.map ECDisk.nodeID).dedup.length < minMachines
        · refine ⟨.tooFewNodes (disks.map ECDisk.nodeID).dedup.length, fun turns => ?_⟩
          simp only [planShards, hstate, ne_eq, not_true_eq_false, if_false, if_pos hnodes]
        · have hlength : disks.length < totalShards := by omega
          refine ⟨.tooFewDisks disks.length, fun turns => ?_⟩
          simp only [planShards, hstate, ne_eq, not_true_eq_false, if_false, if_neg hnodes,
            if_pos hlength]
      have hnever : ∀ turns st', planShards turns st disks ≠ some (.ok st') := by
        intro turns st' hst'
        rw [herr turns] at hst'
        cases hst'
      refine ⟨⟨0, by rw [herr]; rfl⟩, ⟨?_, ?_⟩, fun turns st' hst' => absurd hst' (hnever _ _)⟩
      · rintro ⟨turns, st', hst'⟩
        exact absurd hst' (hnever turns st')
      · rintro ⟨hnodes, hcapacity⟩
        exact absurd ⟨hnodes, hcapacity.trans capacity_le_length⟩ hchecks

/-- A stripe whose conversion has begun. -/
def begunStripe : ECStripe :=
  { stripeID := "stripe-7".toList, extentID := 7, generation := 1, originalChecksum := 0,
    state := .preparing }

/-- Nine disks on three nodes, three on each. -/
def evenDisks : List ECDisk :=
  [⟨10, 1⟩, ⟨11, 1⟩, ⟨12, 1⟩, ⟨20, 2⟩, ⟨21, 2⟩, ⟨22, 2⟩, ⟨30, 3⟩, ⟨31, 3⟩, ⟨32, 3⟩]

theorem planShards_ends_even :
    begunStripe.state = .preparing ∧ evenDisks.Nodup ∧ PlansShards begunStripe evenDisks :=
  ⟨rfl, by decide, (planShards_ends_iff rfl (by decide)).mpr (.inr (.inr (by decide)))⟩

/-- Nine disks on three nodes, seven of them on one node. -/
def crowdedDisks : List ECDisk :=
  [⟨10, 1⟩, ⟨11, 1⟩, ⟨12, 1⟩, ⟨13, 1⟩, ⟨14, 1⟩, ⟨15, 1⟩, ⟨16, 1⟩, ⟨20, 2⟩, ⟨30, 3⟩]

/-- Nine disks on three nodes on which the planner never ends. -/
theorem crowded_planner_never_ends :
    crowdedDisks.Nodup ∧ ∀ turns, planShards turns begunStripe crowdedDisks = none := by
  have hnodup : crowdedDisks.Nodup := by decide
  refine ⟨hnodup, fun turns => ?_⟩
  have hloop : planShards turns begunStripe crowdedDisks = _ :=
    planShards_eq_loop rfl (by decide) (by decide) hnodup turns
  cases hplan : placeShards turns (nodeQueues crowdedDisks) 0 0 [] with
  | none => rw [hloop, hplan, Option.map_none]
  | some plan => exact absurd (le_capacity hplan) (by decide)

end Nufs.Ec
