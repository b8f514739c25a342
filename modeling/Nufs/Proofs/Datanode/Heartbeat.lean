/-
When heartbeats converge.

What the reporter takes as known, the metadata service has; so a report and what was known
add up to the snapshot.  Chunks that are gone are only found among the known ones, and only
by a report that is not a full sync: a full sync leaves them as they are, and forgets them.
-/
import Nufs.Datanode.Heartbeat

namespace Nufs.Heartbeat

open ChunkStates

/-- The map says of each stored chunk what the store does, and no other chunk is Ready. -/
def World.Converged (w : World) : Prop :=
  (∀ id st, w.store.get id = some st → w.metadata id = some st) ∧
    ∀ id, w.store.get id = none → w.metadata id ≠ some .ready

/-- **The invariant.**  The service has what the reporter takes as known. -/
structure World.Inv (w : World) : Prop where
  known : ∀ id st, w.reporter.lastKnownState.get id = some st → w.metadata id = some st
  sent : ∀ r, w.sending = .sent r → ∀ id st, r.known.get id = some st → w.metadata id = some st

variable {m : ChunkStates} {id : ChunkID} {st : ReplicaState} {r : Report} {w : World}

theorem ChunkStates.get_eq_some : m.get id = some st ↔ id ∈ m.keys ∧ m.state id = st := by
  unfold ChunkStates.get
  split_ifs with hid <;> simp [hid]

theorem ChunkStates.get_eq_none : m.get id = none ↔ id ∉ m.keys := by
  simp [ChunkStates.get]

theorem World.metadata_succeed : (w.succeed r).metadata id =
    if id ∈ r.chunkStates.keys then some (r.chunkStates.state id) else w.metadata id := by
  unfold World.succeed ChunkStates.get
  dsimp only
  split_ifs <;> rfl

/-- What the service has of a chunk of the snapshot, after the report. -/
theorem World.Inv.succeed_stored (h : w.Inv) (hsent : w.sending = .sent r)
    (hid : r.snapshot.get id = some st) : (w.succeed r).metadata id = some st := by
  obtain ⟨hmem, rfl⟩ := get_eq_some.mp hid
  rw [World.metadata_succeed]
  split_ifs with hreported
  · simp [Report.chunkStates, hmem]
  · -- A state that is not reported is the known one.
    have hknown : r.known.get id = some (r.snapshot.state id) := by
      by_contra hnot
      exact hreported (by simp [Report.chunkStates, hmem, hnot])
    exact h.sent r hsent id _ hknown

/-- What it has of another chunk. -/
theorem World.succeed_gone (hid : r.snapshot.get id = none) :
    (w.succeed r).metadata id = if id ∈ r.deleted then some .failed else w.metadata id := by
  have hmem := get_eq_none.mp hid
  rw [World.metadata_succeed]
  simp [Report.chunkStates, hmem]

theorem World.Inv.succeed (h : w.Inv) (hsent : w.sending = .sent r) : (w.succeed r).Inv := by
  refine ⟨fun id st hget => ?_, fun r' hr' => by simp [World.succeed] at hr'⟩
  simp only [World.succeed, HeartbeatReporter.acknowledge] at hget
  by_cases hfull : r.needFullSync = true
  · rw [if_pos hfull] at hget
    exact h.succeed_stored hsent hget
  rw [if_neg hfull] at hget
  obtain ⟨hmem, rfl⟩ := get_eq_some.mp hget
  rw [World.metadata_succeed]
  dsimp only
  split_ifs with hreported
  · rfl
  · simp only [hreported, Finset.mem_sdiff, Finset.mem_union, or_false] at hmem
    exact h.known id _ (get_eq_some.mpr ⟨hmem.1, rfl⟩)

theorem World.Inv.step (h : w.Inv) (e : Event) : (step w e).Inv := by
  cases e with
  | change store => exact ⟨h.known, h.sent⟩
  | forceFullSync =>
    exact ⟨by simp [Heartbeat.step, HeartbeatReporter.force, ChunkStates.get], h.sent⟩
  | send succeeds =>
    unfold Heartbeat.step World.send
    cases hsending : w.sending with
    | built v snapshot =>
      cases snapshot with
      | none | some snapshot => exact ⟨h.known, by simp⟩
    | cached v =>
      refine ⟨h.known, fun r hr => ?_⟩
      cases hr
      exact h.known
    | sent r =>
      cases succeeds with
      | true => exact h.succeed hsending
      | false => exact ⟨h.known, by simp⟩
    | _ => exact ⟨h.known, by simp⟩

/-- A node with some chunks; nothing was reported yet. -/
def World.start (store : ChunkStates) (interval : Nat) : World :=
  { store, reporter := { fullSyncInterval := interval } }

theorem World.Inv.run (store : ChunkStates) (interval : Nat) (events : List Event) :
    (events.foldl Heartbeat.step (World.start store interval)).Inv := by
  induction events using List.reverseRecOn with
  | nil => exact ⟨by simp [World.start, ChunkStates.get], by simp [World.start]⟩
  | append_singleton events e ih =>
    rw [List.foldl_append]
    exact ih.step e

/--
**Heartbeats converge.**  Whatever happened before, a heartbeat that succeeds when the store
is as in its snapshot makes the map right, if and only if it is not a full sync and knows of
each chunk that the map has as Ready and the store has not, or there is no such chunk.
-/
theorem heartbeat_converges_iff (store : ChunkStates) (interval : Nat) (events : List Event)
    (w : World) (hrun : events.foldl Heartbeat.step (World.start store interval) = w) (r : Report)
    (hsent : w.sending = .sent r) (hsame : ∀ id, r.snapshot.get id = w.store.get id) :
    (w.succeed r).Converged ↔ ∀ id, w.store.get id = none → w.metadata id = some .ready →
        r.needFullSync = false ∧ r.known.get id ≠ none := by
  have hinv : w.Inv := hrun ▸ World.Inv.run store interval events
  have hstored : ∀ id st, w.store.get id = some st → (w.succeed r).metadata id = some st :=
    fun id st hid => hinv.succeed_stored hsent ((hsame id).trans hid)
  have hdeleted : ∀ id, w.store.get id = none →
      (id ∈ r.deleted ↔ r.needFullSync = false ∧ r.known.get id ≠ none) := by
    intro id hid
    have hgone := get_eq_none.mp ((hsame id).trans hid)
    rw [Report.deleted, Ne, get_eq_none]
    cases r.needFullSync <;> simp [hgone]
  constructor
  · intro hconv id hid hready
    have hmap := hconv.2 id hid
    rw [World.succeed_gone ((hsame id).trans hid)] at hmap
    by_contra hnot
    rw [if_neg (mt (hdeleted id hid).mp hnot)] at hmap
    exact hmap hready
  intro hcond
  refine ⟨hstored, fun id hid => ?_⟩
  rw [World.succeed_gone ((hsame id).trans hid)]
  split_ifs with hgone
  · simp
  · exact fun hready => hgone ((hdeleted id hid).mpr (hcond id hid hready))

/-- The steps of `send` up to the request. -/
def sends : List Event := List.replicate 4 (.send true)

/-- A node with two chunks reports, loses one of them and reports again. -/
def afterDelete (between : List Event) : World :=
  (sends ++ .send true :: .change { keys := {2} } :: between ++ sends).foldl Heartbeat.step
    (World.start { keys := {1, 2} } 6)

theorem heartbeat_converges_iff_delta :
    ∃ r, (afterDelete []).sending = .sent r ∧ ((afterDelete []).succeed r).Converged := by
  refine ⟨_, rfl, (heartbeat_converges_iff { keys := {1, 2} } 6 _ _ rfl _ rfl fun _ => rfl).mpr ?_⟩
  intro id _ hready
  refine ⟨rfl, fun hunknown => ?_⟩
  have hfirst : (World.succeed {} ⟨0, { keys := {1, 2} }, {}, true⟩).metadata id = none :=
    World.succeed_gone hunknown
  exact absurd (hready.symm.trans hfirst) (by simp)

/-- After `ForceFullSync` the chunk that is gone stays Ready. -/
theorem full_sync_keeps_deleted_ready : ∃ r, (afterDelete [.forceFullSync]).sending = .sent r ∧
      (∀ id, r.snapshot.get id = (afterDelete [.forceFullSync]).store.get id) ∧
      (afterDelete [.forceFullSync]).store.get 1 = none ∧
      ((afterDelete [.forceFullSync]).succeed r).metadata 1 = some .ready :=
  ⟨_, rfl, fun _ => rfl, by decide, by decide⟩

end Nufs.Heartbeat
