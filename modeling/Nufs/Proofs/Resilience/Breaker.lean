/-
What a circuit breaker lets through, however its calls are interleaved.

A call checks the state before it starts and settles it after it ends, with nothing
held in between, and a breaker that is half open is not checked at all.  So the
protocol holds as long as a call that finds the breaker not closed is alone, and so
is a call whose failure opens it: then a call that is in flight while the breaker is
not closed came after the last opening, and it is the only one.
-/
import Nufs.Resilience.Breaker
import Nufs.Lib.Guarded

namespace Nufs.Resilience

open Function Option

variable {n : Nat} {s s' : System n} {a : Action n}

/-- The protocol at one step. -/
structure Obeys (s : System n) (a : Action n) : Prop where
  /-- No wrapped call starts while the breaker is open and its timeout has not passed. -/
  waits : s.calls a.call = .start → s.breaker.state = .opened →
    s.breaker.cfg.timeout ≤ a.now - s.breaker.lastFailTime
  /-- One wrapped call at most runs that started after the opening. -/
  single : s.breaker.state ≠ .closed → ∀ i j, s.calls i = .running s.breaker.openings →
    s.calls j = .running s.breaker.openings → i = j
  /-- The breaker closes through a call that started after the opening and succeeded. -/
  closes : ∀ s', step s a = some s' → s.breaker.state ≠ .closed → s'.breaker.state = .closed →
    s.calls a.call = .close s.breaker.openings

/-- The step looks at a breaker that is not closed, or opens it. -/
def Phase.contends (b : Breaker) : Phase → Bool
  | .loadState => b.state ≠ .closed
  | .compare k => b.cfg.threshold ≤ k
  | _ => false

/-- **The condition on a step.**  No other call is in flight when a call finds the breaker not
closed, or when failures reach the threshold. -/
def Alone (s : System n) (a : Action n) : Prop :=
  (s.calls a.call).contends s.breaker = true → ∀ j, j ≠ a.call → (s.calls j).inFlight = false
  deriving Decidable

/-- The call started after the last opening, and does not start while the breaker is open. -/
def Phase.Current (b : Breaker) : Phase → Prop
  | .start => b.state ≠ .opened
  | .running started | .resetFailures started | .close started => started = b.openings
  | _ => True

/-- **The invariant.**  A breaker not closed has at most one call in flight, a current one. -/
def Inv (s : System n) : Prop :=
  s.breaker.state ≠ .closed → ∀ i, (s.calls i).Current s.breaker ∧
    ((s.calls i).inFlight = true → ∀ j, j ≠ i → (s.calls j).inFlight = false)

theorem Phase.Current.of_not_inFlight {p : Phase} (h : p.inFlight = false) (b : Breaker) :
    p.Current b := by
  cases p with
  | loadState | returned err => trivial
  | _ => cases h

theorem state_transitionLocked (b : Breaker) (next : State) :
    (b.transitionLocked next).state = next := by
  unfold Breaker.transitionLocked
  split_ifs with h
  · exact h
  · rfl

/-- Changes, the last one first, that lead from closed to a state, and from open to half open. -/
def Leads : List (State × State) → State → Prop
  | [], state => state = .closed
  | (old, next) :: changes, state =>
    state = next ∧ old ≠ next ∧ (next = .halfOpen → old = .opened) ∧ Leads changes old

/-- What `onChange` was told leads to the present state. -/
def Breaker.Told (b : Breaker) : Prop := Leads b.changes b.state

theorem Breaker.Told.transitionLocked {b : Breaker} {next : State} (h : b.Told)
    (hnext : next = .halfOpen → b.state = .opened) : (b.transitionLocked next).Told := by
  unfold Breaker.transitionLocked
  split_ifs with hsame
  · exact h
  · exact ⟨rfl, hsame, hnext, h⟩

section Step

variable {now : Int} {fails : Bool} {b b' : Breaker} {p p' : Phase}
  (h : execute now fails b p = some (p', b'))
include h

/-- Which steps change the state. -/
theorem execute_state : b'.state = b.state ∨ b.state = .opened ∧ b'.state = .halfOpen ∨
    (∃ k, p = .compare k ∧ b.cfg.threshold ≤ k ∧ b'.state = .opened) ∨
      ∃ started, p = .close started ∧ b'.state = .closed := by
  cases p <;> simp only [execute, some.injEq, Prod.mk.injEq, reduceCtorEq] at h
  all_goals obtain ⟨-, rfl⟩ := h
  case tryHalfOpen =>
    split_ifs with hopen
    · exact .inr (.inl ⟨hopen, state_transitionLocked _ _⟩)
    · exact .inl rfl
  case compare k =>
    split_ifs with hk
    · exact .inr (.inr (.inl ⟨k, rfl, hk, state_transitionLocked _ _⟩))
    · exact .inl rfl
  case close started => exact .inr (.inr (.inr ⟨started, rfl, state_transitionLocked _ _⟩))
  all_goals exact .inl rfl

theorem execute_current (hcurrent : b.state ≠ .closed → p.Current b) (hnot : b'.state ≠ .closed) :
    p'.Current b' := by
  cases p <;> simp only [execute, some.injEq, Prod.mk.injEq, reduceCtorEq] at h
  all_goals obtain ⟨rfl, rfl⟩ := h
  case loadState =>
    split_ifs with hopen
    · trivial
    · exact hopen
  case tryHalfOpen =>
    show Breaker.state _ ≠ .opened
    split_ifs with hopen
    · rw [state_transitionLocked]
      exact State.noConfusion
    · exact hopen
  case start => rfl
  case running =>
    split_ifs
    · trivial
    · exact hcurrent hnot
  case resetFailures => exact hcurrent hnot
  case since => split_ifs <;> trivial
  all_goals trivial

theorem execute_told (htold : b.Told) : b'.Told := by
  cases p <;> simp only [execute, some.injEq, Prod.mk.injEq, reduceCtorEq] at h
  all_goals obtain ⟨-, rfl⟩ := h
  case tryHalfOpen =>
    split_ifs with hopen
    · exact htold.transitionLocked fun _ => hopen
    · exact htold
  case compare =>
    split_ifs
    · exact htold.transitionLocked State.noConfusion
    · exact htold
  case close => exact htold.transitionLocked State.noConfusion
  all_goals exact htold

end Step

theorem Inv.step (h : Inv s) (halone : Alone s a) (hstep : step s a = some s') : Inv s' := by
  obtain ⟨⟨p', b'⟩, hexec, rfl⟩ := map_eq_some_iff.mp hstep
  intro hnot
  dsimp only at hnot ⊢
  -- Nobody else is in flight once the breaker is not closed.
  have hothers : ∀ j, j ≠ a.call → (s.calls j).inFlight = false := by
    by_cases hb : s.breaker.state = .closed
    · rcases execute_state hexec with hsame | ⟨hopen, -⟩ | ⟨k, hk, hle, -⟩ | ⟨_, -, hclosed⟩
      · exact absurd (hsame.trans hb) hnot
      · cases hb.symm.trans hopen
      · exact halone (by simp [hk, Phase.contends, hle])
      · exact absurd hclosed hnot
    cases hp : s.calls a.call with
    | loadState => exact halone (by simp [hp, Phase.contends, hb])
    | returned err =>
      rw [hp] at hexec
      cases hexec
    | _ => exact (h hb a.call).2 (by rw [hp]; rfl)
  intro i
  by_cases hi : i = a.call
  · subst hi
    rw [update_self]
    refine ⟨execute_current hexec (fun hb => (h hb _).1) hnot, fun _ j hj => ?_⟩
    rw [update_of_ne hj]
    exact hothers j hj
  · rw [update_of_ne hi]
    refine ⟨.of_not_inFlight (hothers i hi) _, fun hflight => ?_⟩
    rw [hothers i hi] at hflight
    cases hflight

/--
**The protocol of the breaker.**  In every run of any number of calls, at any times, in
which no other call is in flight when a call finds the breaker not closed or opens it, no
wrapped call starts while the breaker is open, one at most runs that started after an
opening, and only the success of such a call closes the breaker.
-/
theorem breaker_protocol (cfg : Config) {actions : List (Action n)}
    (hmeets : Guarded.Meets step Alone actions (init cfg n))
    (hrun : Guarded.run step actions (init cfg n) = some s) (a : Action n) : Obeys s a := by
  have hinit : Inv (init cfg n) := fun hnot => absurd rfl hnot
  have h : Inv s := Guarded.run_invariant (fun _ _ _ => Inv.step) hinit hmeets hrun
  refine ⟨fun hstart hopen => ?_, fun hnot i j hi hj => ?_, fun s' hstep hnot hclosed => ?_⟩
  · have hcurrent := (h (by simp [hopen]) a.call).1
    rw [hstart] at hcurrent
    exact absurd hopen hcurrent
  · by_contra hne
    have hother := (h hnot j).2 (by rw [hj]; rfl) i hne
    rw [hi] at hother
    cases hother
  · obtain ⟨⟨p', b'⟩, hexec, rfl⟩ := map_eq_some_iff.mp hstep
    have hcurrent := (h hnot a.call).1
    rcases execute_state hexec with hsame | ⟨-, hhalf⟩ | ⟨k, -, -, hopen⟩ | ⟨started, hp, -⟩
    · exact absurd (hsame.symm.trans hclosed) hnot
    · cases hclosed.symm.trans hhalf
    · cases hclosed.symm.trans hopen
    · rw [hp] at hcurrent ⊢
      exact congrArg _ hcurrent

/-- A failure opens the breaker, and once the timeout has passed a probe closes it again. -/
def probed : List (Action 2) :=
  [⟨0, 0, false⟩, ⟨0, 0, false⟩, ⟨0, 1, true⟩, ⟨0, 1, true⟩, ⟨0, 1, true⟩, ⟨0, 1, true⟩,
    ⟨1, 9, false⟩, ⟨1, 9, false⟩, ⟨1, 9, false⟩, ⟨1, 9, false⟩, ⟨1, 9, false⟩, ⟨1, 9, false⟩,
    ⟨1, 9, false⟩]

theorem breaker_protocol_probed :
    ∃ s, Guarded.run step probed (init ⟨1, 5⟩ 2) = some s ∧ s.calls 1 = .close 1 ∧
      Obeys s ⟨1, 9, false⟩ := by
  have hend : (Guarded.run step probed (init ⟨1, 5⟩ 2)).map (fun s => s.calls 1) =
      some (.close 1) := by decide
  obtain ⟨s, hs, hclose⟩ := map_eq_some_iff.mp hend
  exact ⟨s, hs, hclose, breaker_protocol ⟨1, 5⟩ (by decide) hs _⟩

/-- Two calls start while the breaker is closed; one fails and opens it, and the other one, which
started before, closes it at once. -/
theorem late_success_closes :
    (Guarded.run step [⟨0, 0, false⟩, ⟨0, 0, false⟩, ⟨1, 0, false⟩, ⟨1, 0, false⟩, ⟨0, 1, true⟩,
        ⟨0, 1, true⟩, ⟨0, 1, true⟩, ⟨0, 1, true⟩, ⟨1, 2, false⟩, ⟨1, 2, false⟩] (init ⟨1, 5⟩ 2)).map
        (fun s => (s.breaker.state, s.breaker.openings, s.calls 1,
          (step s ⟨1, 2, false⟩).map fun s => s.breaker.state)) =
      some (.opened, 1, .close 0, some .closed) := by
  decide

/--
**What `onChange` is told.**  In every run of any number of calls, however interleaved,
the reported changes lead from closed to the present state.
-/
theorem reported_changes_lead (cfg : Config) {actions : List (Action n)}
    (hrun : Guarded.run step actions (init cfg n) = some s) : s.breaker.Told := by
  refine @Guarded.run_invariant _ _ step (fun _ _ => True) actions (fun s => s.breaker.Told) ?_
    (init cfg n) s rfl (.of_forall (fun _ _ => trivial) _ _) hrun
  intro s a s' h _ hstep
  obtain ⟨r, hexec, rfl⟩ := map_eq_some_iff.mp hstep
  exact execute_told hexec h

theorem reported_changes_lead_probed : ∃ s, Guarded.run step probed (init ⟨1, 5⟩ 2) = some s ∧
    s.breaker.changes = [(.opened, .halfOpen), (.closed, .opened)] ∧ s.breaker.Told := by
  have hend : (Guarded.run step probed (init ⟨1, 5⟩ 2)).map (fun s => s.breaker.changes) =
      some [(.opened, .halfOpen), (.closed, .opened)] := by decide
  obtain ⟨s, hs, hchanges⟩ := map_eq_some_iff.mp hend
  exact ⟨s, hs, hchanges, reported_changes_lead ⟨1, 5⟩ hs⟩

end Nufs.Resilience
