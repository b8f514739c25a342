/-
What a rejected call costs the other nodes.

The global bucket is asked first, and its token is not given back when the bucket of the node
rejects.  So calls beyond a node's own limit drain the bucket of all nodes, although the
comment on `Allow` says they do not.  A node whose rejected calls are those the global bucket
rejected is not noticed by the others.
-/
import Nufs.Metadata.NodeThrottle
import Mathlib.Tactic.Linarith

namespace Nufs.Throttle

open Nufs.Chunks (NodeID)

namespace Limiter

variable {l : Limiter} {now : ℚ}

theorem allow_fst (l : Limiter) (now : ℚ) : (l.allow now).1 = l.hasToken now := by
  unfold allow
  cases h : l.hasToken now with
  | false => rfl
  | true => cases l.limit <;> rfl

theorem allow_rejects (h : l.hasToken now = false) : l.allow now = (false, l) := by
  unfold allow
  rw [h]
  rfl

theorem allow_passes (h : l.hasToken now) : l.allow now = (true, (l.allow now).2) :=
  Prod.ext ((allow_fst l now).trans h) rfl

/-- A token taken changes every limiter but the unlimited one. -/
theorem taken_eq_iff (h : l.hasToken now) : (l.allow now).2 = l ↔ l.limit = .inf := by
  unfold allow
  rw [if_pos h]
  cases hl : l.limit with
  | inf => simp
  | perSecond r =>
    simp only [reduceCtorEq, iff_false]
    intro heq
    have hlast : now = l.last := congrArg Limiter.last heq
    have htokens : l.advance r now - 1 = l.tokens := congrArg Limiter.tokens heq
    have hle : l.advance r now ≤ l.tokens := by
      unfold advance
      rw [hlast, sub_self, max_self, mul_zero, add_zero]
      exact min_le_right _ _
    linarith

end Limiter

namespace NodeRegistrationThrottle

variable {t : NodeRegistrationThrottle} {c : Call} {A : NodeID}

/-- **The condition on a call**, in the state before it: the bucket of the node has a token, or
the global one has none to lose. -/
def Spares (t : NodeRegistrationThrottle) (c : Call) : Prop :=
  t.global.hasToken c.time = true → t.global.limit ≠ .inf →
    (t.perNode c.nodeID).hasToken c.nodeTime = true

instance (t : NodeRegistrationThrottle) (c : Call) : Decidable (t.Spares c) :=
  inferInstanceAs (Decidable (_ → _ → _))

/-- A rejected call takes no token exactly if the condition holds. -/
theorem allow_snd_eq_iff (h : (t.allow c).1 = false) : (t.allow c).2 = t ↔ t.Spares c := by
  cases hg : t.global.hasToken c.time with
  | false =>
    unfold allow
    rw [Limiter.allow_rejects hg]
    exact iff_of_true rfl fun htoken => absurd htoken (by simp [hg])
  | true =>
    unfold allow at h ⊢
    rw [Limiter.allow_passes hg] at h ⊢
    have hn := (Limiter.allow_fst _ _).symm.trans h
    rw [Limiter.allow_rejects hn]
    constructor
    · intro heq _ hlimit
      exact absurd ((Limiter.taken_eq_iff hg).mp (congrArg global heq)) hlimit
    · intro hspares
      have hlimit : t.global.limit = .inf := by
        by_contra hlimit
        exact absurd (hspares hg hlimit) (by simp [hn])
      dsimp only
      rw [(Limiter.taken_eq_iff hg).mpr hlimit, Function.update_eq_self]

/-- What stays when the rejected calls of a node are removed. -/
def survives (A : NodeID) (r : Call × Bool) : Bool := r.1.nodeID ≠ A ∨ r.2

/-- The condition on the calls of a node in a run. -/
def SparesAll (A : NodeID) (t : NodeRegistrationThrottle) : List Call → Prop
  | [] => True
  | c :: calls => (c.nodeID = A → t.Spares c) ∧ SparesAll A (t.allow c).2 calls

theorem run_survivors {calls : List Call} (hall : SparesAll A t calls) :
    t.run (((t.run calls).filter (survives A)).map Prod.fst) =
      (t.run calls).filter (survives A) := by
  induction calls generalizing t with
  | nil => rfl
  | cons c calls ih =>
    obtain ⟨hc, hrest⟩ := hall
    have hnext := ih hrest
    simp only [run, List.filter_cons]
    split_ifs with hkeep
    · simp only [List.map_cons, run]
      rw [hnext]
    · simp only [survives, decide_eq_true_eq, not_or, not_not, Bool.not_eq_true] at hkeep
      rw [(allow_snd_eq_iff hkeep.2).mpr (hc hkeep.1)] at hnext ⊢
      exact hnext

/-- What the nodes other than `A` see of a run. -/
def others (A : NodeID) (results : List (Call × Bool)) : List (Call × Bool) :=
  results.filter fun r => r.1.nodeID ≠ A

/--
**Isolation.**  A rejected call takes no token of any bucket, exactly if it meets the
condition; and where the calls of a node all meet it, a run without the rejected ones gives
the other nodes the same results.
-/
theorem allow_isolates (t : NodeRegistrationThrottle) (c : Call) (cfg : NodeThrottleConfig)
    (A : NodeID) (calls : List Call) :
    ((t.allow c).1 = false → ((t.allow c).2 = t ↔ t.Spares c)) ∧ (SparesAll A (new cfg) calls →
      others A ((new cfg).run ((((new cfg).run calls).filter (survives A)).map Prod.fst)) =
        others A ((new cfg).run calls)) := by
  refine ⟨fun h => allow_snd_eq_iff h, fun hall => ?_⟩
  rw [run_survivors hall, others, others, List.filter_filter]
  refine List.filter_congr fun r _ => ?_
  by_cases hr : r.1.nodeID = A
  · simp [hr]
  · simp [survives, hr]

theorem allow_isolates_drained :
    let cfg : NodeThrottleConfig := ⟨.perSecond 0, 1, .perSecond 0, 2⟩
    let calls : List Call := [⟨7, 1, 1⟩, ⟨7, 2, 2⟩, ⟨8, 3, 3⟩]
    (new cfg).run calls = [(⟨7, 1, 1⟩, true), (⟨7, 2, 2⟩, false), (⟨8, 3, 3⟩, false)] ∧
      others 7 ((new cfg).run ((((new cfg).run calls).filter (survives 7)).map Prod.fst)) =
        others 7 ((new cfg).run calls) :=
  ⟨by decide +kernel, (allow_isolates (new ⟨.perSecond 0, 1, .perSecond 0, 2⟩) ⟨7, 1, 1⟩ _ 7 _).2
    ⟨by decide +kernel, by decide +kernel, by decide +kernel, trivial⟩⟩

/-- The second call of node 7 is rejected, and with its token the call of node 8. -/
theorem allow_leaks :
    let cfg : NodeThrottleConfig := ⟨.perSecond 0, 2, .perSecond 0, 1⟩
    let calls : List Call := [⟨7, 1, 1⟩, ⟨7, 2, 2⟩, ⟨8, 3, 3⟩]
    others 7 ((new cfg).run calls) = [(⟨8, 3, 3⟩, false)] ∧
      others 7 ((new cfg).run ((((new cfg).run calls).filter (survives 7)).map Prod.fst)) =
        [(⟨8, 3, 3⟩, true)] := by
  decide +kernel

end NodeRegistrationThrottle

end Nufs.Throttle
