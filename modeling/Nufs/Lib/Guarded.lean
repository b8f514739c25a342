/-
Transition systems with guarded runs.

A system takes actions; an action may not be possible in a state.  A guard says
under which circumstances an action is considered at all.  What holds at the start
and is kept by every guarded step holds in every state a guarded run reaches.
-/
import Mathlib.Data.List.Basic

namespace Guarded

variable {σ α : Type} (step : σ → α → Option σ)

/-- Take actions one after the other; nothing, if one of them is not possible. -/
def run : List α → σ → Option σ
  | [], s => some s
  | a :: acts, s => (step s a).bind (run acts)

/-- The actions meet the guard, each in the state it is taken in. -/
def Meets (guard : σ → α → Prop) : List α → σ → Prop
  | [], _ => True
  | a :: acts, s => guard s a ∧ ∀ s', step s a = some s' → Meets guard acts s'

instance Meets.decidable (guard : σ → α → Prop) [∀ s a, Decidable (guard s a)] :
    ∀ acts s, Decidable (Meets step guard acts s)
  | [], _ => isTrue trivial
  | a :: acts, s =>
    have := Meets.decidable guard acts
    inferInstanceAs (Decidable (guard s a ∧ ∀ s', step s a = some s' → Meets step guard acts s'))

variable {step}

variable {guard : σ → α → Prop} {acts : List α}

theorem Meets.of_forall (h : ∀ s a, guard s a) (acts : List α) (s : σ) :
    Meets step guard acts s := by
  induction acts generalizing s with
  | nil => trivial
  | cons a acts ih => exact ⟨h s a, fun s' _ => ih s'⟩

theorem Meets.cons {a : α} {s s' : σ} (hguard : guard s a)
    (hstep : step s a = some s') (h : Meets step guard acts s') :
    Meets step guard (a :: acts) s := by
  refine ⟨hguard, fun t ht => ?_⟩
  obtain rfl : s' = t := Option.some.inj (hstep.symm.trans ht)
  exact h

theorem run_cons {a : α} {s t : σ} (h : run step (a :: acts) s = some t) :
    ∃ s', step s a = some s' ∧ run step acts s' = some t :=
  Option.bind_eq_some_iff.mp h

/-- **The invariant rule.**  What every guarded step keeps, every guarded run keeps. -/
theorem run_invariant {Inv : σ → Prop}
    (hstep : ∀ s a s', Inv s → guard s a → step s a = some s' → Inv s')
    {s t : σ} (hinv : Inv s) (hmeets : Meets step guard acts s)
    (hrun : run step acts s = some t) : Inv t := by
  induction acts generalizing s with
  | nil =>
    obtain rfl : s = t := by simpa [run] using hrun
    exact hinv
  | cons a acts ih =>
    obtain ⟨s', hs', hrest⟩ := run_cons hrun
    exact ih (hstep s a s' hinv hmeets.1 hs') (hmeets.2 s' hs') hrest

/--
**The refinement rule.**  If every guarded step is possible and does what an abstract one
does, a guarded run is possible and ends where the abstract one ends.
-/
theorem run_refines {χ : Type} {R : σ → χ → Prop} {next : χ → α → χ}
    (hstep : ∀ s a x, R s x → guard s a → ∃ s', step s a = some s' ∧ R s' (next x a))
    {s : σ} {x : χ} (hR : R s x) (hmeets : Meets step guard acts s) :
    ∃ t, run step acts s = some t ∧ R t (acts.foldl next x) := by
  induction acts generalizing s x with
  | nil => exact ⟨s, rfl, hR⟩
  | cons a acts ih =>
    obtain ⟨s', hs', hR'⟩ := hstep s a x hR hmeets.1
    obtain ⟨t, ht, hRt⟩ := ih hR' (hmeets.2 s' hs')
    refine ⟨t, ?_, hRt⟩
    rw [run, hs']
    exact ht

end Guarded
