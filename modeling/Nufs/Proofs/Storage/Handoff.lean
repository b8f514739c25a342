/-
The overlay hands its entries over.

Seen from outside, every key has one latest value, which is fresh, staged by a flush, or
discarded because the index has it.  The overlay and the index behind it refine this view,
whatever the order of puts, drains, retries and restores.
-/
import Nufs.Proofs.Storage.Checkpoints

namespace Nufs.Storage

namespace Handoff

open Overlay List Index

/-- An overlay in front of an index, and what drains returned that is not yet resolved. -/
structure State where
  overlay : Overlay
  index : Index
  staged : List Mutation

inductive Action
  | put (k : Key) (v : Value)
  | drain
  | apply
  | discard
  | restore

/-- What was drained is applied, or applied again, before it is discarded. -/
def step (s : State) : Action → State
  | .put k v => { s with overlay := s.overlay.put k v }
  | .drain => ⟨s.overlay.drain, s.index, s.staged ++ s.overlay.drained⟩
  | .apply => { s with index := s.index.applyNow s.staged }
  | .discard => ⟨s.overlay.discardDrained, s.index.applyNow s.staged, []⟩
  | .restore => ⟨s.overlay.restoreDrained, s.index, []⟩

/-- The overlay is empty at first. -/
def run (index : Index) (acts : List Action) : State := acts.foldl step ⟨.empty, index, []⟩

/-- Where the latest value of a key is. -/
inductive Stage
  | fresh
  | staged
  | discarded
  deriving DecidableEq

/-- The latest value of every key that was put. -/
abbrev Latest := Key → Option (Value × Stage)

/-- The keys of one stage go over to another. -/
def Latest.move (x : Latest) (a b : Stage) : Latest := fun k =>
  (x k).map fun p => if p.2 = a then (p.1, b) else p

def Latest.next (x : Latest) : Action → Latest
  | .put k v => Function.update x k (some (v, .fresh))
  | .drain => x.move .fresh .staged
  | .apply => x
  | .discard => x.move .staged .discarded
  | .restore => x.move .staged .fresh

/-- The latest values after some actions. -/
def latest (acts : List Action) : Latest := acts.foldl Latest.next fun _ => none

/-! ### Refinement -/

variable {s : State} {x : Latest} {k : Key} {v : Value} {a b stage : Stage}

/-- Where the overlay and the index have a latest value. -/
def State.Has (s : State) (k : Key) (v : Value) : Stage → Prop
  | .fresh => s.overlay.entries.lookup k = some v
  | .staged => s.overlay.entries.lookup k = none ∧ s.overlay.draining.lookup k = some v
  | .discarded => s.overlay.entries.lookup k = none ∧ s.overlay.draining.lookup k = none ∧
      s.index.lookup k = some v

structure Refines (s : State) (x : Latest) : Prop where
  staged : ∀ (ix : Index) k,
    (ix.applyNow s.staged).lookup k = (s.overlay.draining.lookup k).or (ix.lookup k)
  has : ∀ k v stage, x k = some (v, stage) → s.Has k v stage

theorem move_eq_some (h : x.move a b k = some (v, stage)) :
    ∃ old, x k = some (v, old) ∧ stage = if old = a then b else old := by
  obtain ⟨⟨v', old⟩, hx, heq⟩ := Option.map_eq_some_iff.mp h
  refine ⟨old, ?_⟩
  split_ifs at heq ⊢ <;> cases heq <;> exact ⟨hx, rfl⟩

theorem Refines.step (h : Refines s x) (a : Action) : Refines (step s a) (x.next a) := by
  cases a with
  | put k v =>
    refine ⟨h.staged, fun k' v' stage hk' => ?_⟩
    by_cases hk : k' = k
    · subst hk
      obtain ⟨rfl, rfl⟩ : v = v' ∧ .fresh = stage := by simpa [Latest.next] using hk'
      exact AList.lookup_insert _
    · have hhas := h.has k' v' stage (by simpa [Latest.next, hk] using hk')
      cases stage <;> simpa [State.Has, Handoff.step, AList.lookup_insert_ne hk] using hhas
  | drain =>
    refine ⟨fun ix k => ?_, fun k v stage hk => ?_⟩
    · simp only [Handoff.step, applyNow_append, lookup_applyNow_drained, h.staged, draining_drain,
        lookup_union, Option.or_assoc]
    · obtain ⟨old, hx, rfl⟩ := move_eq_some hk
      have hhas := h.has k v old hx
      cases old <;> simp_all [State.Has, Handoff.step, lookup_union]
  | apply =>
    refine ⟨h.staged, fun k v stage hk => ?_⟩
    have hhas := h.has k v stage hk
    cases stage <;> simp_all [State.Has, Handoff.step, h.staged]
  | discard | restore =>
    refine ⟨fun ix k => rfl, fun k v stage hk => ?_⟩
    obtain ⟨old, hx, rfl⟩ := move_eq_some hk
    have hhas := h.has k v old hx
    cases old <;> simp_all [State.Has, Handoff.step, lookup_union, h.staged]

theorem Refines.foldl (h : Refines s x) (acts : List Action) :
    Refines (acts.foldl Handoff.step s) (acts.foldl Latest.next x) := by
  induction acts generalizing s x with
  | nil => exact h
  | cons a acts ih => exact ih (h.step a)

theorem refines_run (index : Index) (acts : List Action) :
    Refines (run index acts) (latest acts) :=
  Refines.foldl ⟨fun _ _ => rfl, by simp⟩ acts

/-- Nothing is staged until the next drain. -/
theorem not_staged {after : List Action} (hdrain : .drain ∉ after)
    (hx : ∀ k v, x k ≠ some (v, .staged)) : after.foldl Latest.next x k ≠ some (v, .staged) := by
  induction after generalizing x with
  | nil => exact hx k v
  | cons a after ih =>
    refine ih (fun hmem => hdrain (mem_cons_of_mem _ hmem)) fun k v hk => ?_
    cases a with
    | put k' v' =>
      by_cases hk' : k = k'
      · simp [Latest.next, hk'] at hk
      · exact hx k v (by simpa [Latest.next, hk'] using hk)
    | drain => exact hdrain mem_cons_self
    | apply => exact hx k v hk
    | discard | restore =>
      obtain ⟨old, hold, heq⟩ := move_eq_some hk
      split_ifs at heq
      exact hx k v (heq ▸ hold)

/--
**The hand-off.**  Whatever was put, drained, applied, discarded and restored, a lookup finds the
value a key was last given.  A drain that is the first one behind a restore returns this value for
every key that is not discarded, and no other.
-/
theorem overlay_hands_over (index : Index) (acts : List Action) (k : Key) (v : Value)
    (stage : Stage) (hk : latest acts k = some (v, stage)) :
    ((run index acts).overlay.get k).or ((run index acts).index.lookup k) = some v ∧
      ∀ before after, acts = before ++ .restore :: after → .drain ∉ after →
        stage ≠ .discarded → ∀ v', ⟨k, v'⟩ ∈ (run index acts).overlay.drained ↔ v' = v := by
  have hhas := (refines_run index acts).has k v stage hk
  generalize run index acts = s at hhas ⊢
  refine ⟨by unfold Overlay.get; cases stage <;> simp_all [State.Has], ?_⟩
  rintro before after rfl hdrain hkept v'
  cases stage with
  | fresh =>
    have hentry : s.overlay.entries.lookup k = some v := hhas
    rw [mem_drained, hentry, Option.some.injEq, eq_comm]
  | staged =>
    rw [latest, foldl_append, foldl_cons] at hk
    refine absurd hk (not_staged hdrain fun k v h => ?_)
    obtain ⟨old, -, heq⟩ := move_eq_some h
    split_ifs at heq with hold
    exact hold heq.symm
  | discarded => exact absurd rfl hkept

/-- A location. -/
def location (offset : Nat) : Value := ⟨1, offset, 0, 0, .durable, 0⟩

/-- A value is put while its predecessor is handed over; then a flush fails. -/
def retried : List Action :=
  [.put (7, 1) (location 8), .drain, .put (7, 1) (location 9), .discard, .drain, .restore]

theorem overlay_hands_over_retried :
    ((run ∅ retried).overlay.get (7, 1)).or ((run ∅ retried).index.lookup (7, 1)) =
        some (location 9) ∧ ∀ v, ⟨(7, 1), v⟩ ∈ (run ∅ retried).overlay.drained ↔ v = location 9 := by
  obtain ⟨hlookup, hdrained⟩ := overlay_hands_over ∅ retried (7, 1) (location 9) .fresh (by decide)
  exact ⟨hlookup, hdrained (retried.take 5) [] rfl (by simp) nofun⟩

end Handoff

end Nufs.Storage
