/-
Replaying a log over a state that already has it.

An entry of the log is refused and changes nothing, or overwrites some places of the
state with what it carries.  Whether it is refused depends on the state, so a log that
is applied again can be judged differently.  The replay ends where the first pass ended
exactly if an entry that only one pass accepts finds, in the other pass, what it writes,
except at places that are written again later.
-/
import Mathlib.Data.List.Basic

namespace Replay

variable {σ K V E : Type}

/-- An entry that is refused changes nothing; one that is accepted overwrites places. -/
structure Overwrites (get : σ → K → Option V) (apply : σ → E → σ) (accepts : σ → E → Prop)
    (patch : E → K → Option (Option V)) : Prop where
  accepted : ∀ {s e} k, accepts s e → get (apply s e) k = (patch e k).getD (get s k)
  refused : ∀ {s e} k, ¬ accepts s e → get (apply s e) k = get s k

variable (get : σ → K → Option V) (apply : σ → E → σ) (accepts : σ → E → Prop)
  (patch : E → K → Option (Option V))

/-- A log applied to a state. -/
def applyAll (log : List E) (s : σ) : σ := log.foldl apply s

/-- Some entry that one of two passes accepts writes the place. -/
def Written (k : K) : List E → σ → σ → Prop
  | [], _, _ => False
  | e :: log, s, t =>
    (patch e k ≠ none ∧ (accepts s e ∨ accepts t e)) ∨ Written k log (apply s e) (apply t e)

/-- If only one of two passes accepts the entry, the other has what the entry writes. -/
def Harmless (k : K) (e : E) (s t : σ) : Prop :=
  ∀ v, patch e k = some v →
    (accepts s e → ¬ accepts t e → get t k = v) ∧ (accepts t e → ¬ accepts s e → get s k = v)

/-- Every entry is harmless at the place, or the place is written again later. -/
def SettledAt (k : K) : List E → σ → σ → Prop
  | [], _, _ => True
  | e :: log, s, t =>
    (Harmless get accepts patch k e s t ∨
      Written apply accepts patch k log (apply s e) (apply t e)) ∧
      SettledAt k log (apply s e) (apply t e)

variable {get apply accepts patch}

theorem applyAll_append (p r : List E) (s : σ) :
    applyAll apply (p ++ r) s = applyAll apply r (applyAll apply p s) :=
  List.foldl_append

theorem applyAll_cons (e : E) (log : List E) (s : σ) :
    applyAll apply (e :: log) s = applyAll apply log (apply s e) := rfl

theorem written_cons (k : K) (e : E) (log : List E) (s t : σ) :
    Written apply accepts patch k (e :: log) s t ↔
      (patch e k ≠ none ∧ (accepts s e ∨ accepts t e)) ∨
        Written apply accepts patch k log (apply s e) (apply t e) := .rfl

theorem settledAt_cons (k : K) (e : E) (log : List E) (s t : σ) :
    SettledAt get apply accepts patch k (e :: log) s t ↔ (Harmless get accepts patch k e s t ∨
        Written apply accepts patch k log (apply s e) (apply t e)) ∧
        SettledAt get apply accepts patch k log (apply s e) (apply t e) := .rfl

section

variable (hov : Overwrites get apply accepts patch)
include hov

/-- A place that no accepted entry writes stays as it is. -/
theorem applyAll_of_not_written {log : List E} {s t : σ} {k : K}
    (h : ¬ Written apply accepts patch k log s t) : get (applyAll apply log s) k = get s k := by
  induction log generalizing s t with
  | nil => rfl
  | cons e log ih =>
    have hhead : ¬ (patch e k ≠ none ∧ (accepts s e ∨ accepts t e)) := fun hw => h (.inl hw)
    have htail : ¬ Written apply accepts patch k log (apply s e) (apply t e) :=
      fun hw => h (.inr hw)
    rw [applyAll_cons, ih htail]
    by_cases hs : accepts s e
    · have hp : patch e k = none := by
        by_contra hp
        exact hhead ⟨hp, .inl hs⟩
      rw [hov.accepted k hs, hp]
      rfl
    · exact hov.refused k hs

/-- What one entry does to the difference of two passes at a place. -/
theorem apply_agree_iff (e : E) (s t : σ) (k : K) :
    get (apply t e) k = get (apply s e) k ↔ Harmless get accepts patch k e s t ∧
        ((patch e k ≠ none ∧ (accepts s e ∨ accepts t e)) ∨ get t k = get s k) := by
  unfold Harmless
  by_cases hs : accepts s e
  · rw [hov.accepted k hs]
    by_cases ht : accepts t e
    · rw [hov.accepted k ht]
      cases hp : patch e k with
      | none | some v => simp [ht, hs]
    · rw [hov.refused k ht]
      cases hp : patch e k with
      | none => simp
      | some v => simp [ht, hs]
  · rw [hov.refused k hs]
    by_cases ht : accepts t e
    · rw [hov.accepted k ht]
      cases hp : patch e k with
      | none => simp
      | some v => simp [ht, hs, eq_comm]
    · rw [hov.refused k ht]
      simp [ht, hs]

/-- Two passes end alike at a place if they are settled there and start alike or write it. -/
theorem applyAll_agree_iff (log : List E) (s t : σ) (k : K) :
    get (applyAll apply log t) k = get (applyAll apply log s) k ↔
      SettledAt get apply accepts patch k log s t ∧
        (Written apply accepts patch k log s t ∨ get t k = get s k) := by
  induction log generalizing s t with
  | nil =>
    show get t k = get s k ↔ True ∧ (False ∨ get t k = get s k)
    rw [true_and, false_or]
  | cons e log ih =>
    rw [applyAll_cons, applyAll_cons, ih, apply_agree_iff hov]
    rw [settledAt_cons, written_cons]
    tauto

/-- **The replay rule.**  A replay ends where the log ended exactly if it is settled. -/
theorem applyAll_twice_iff (log : List E) (s : σ) (k : K) :
    get (applyAll apply log (applyAll apply log s)) k = get (applyAll apply log s) k ↔
      SettledAt get apply accepts patch k log s (applyAll apply log s) := by
  rw [applyAll_agree_iff hov]
  refine and_iff_left ?_
  by_cases hw : Written apply accepts patch k log s (applyAll apply log s)
  · exact .inl hw
  · exact .inr (applyAll_of_not_written hov hw)

end

end Replay
