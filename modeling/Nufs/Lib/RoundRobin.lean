/-
Taking turns.

Places are visited one after the other, over and over, and each visit takes at most one
more element from the place.  Every place comes up again; what has been taken is the
same as what the places have given, in another order.
-/
import Mathlib.Data.List.Count
import Mathlib.Data.List.Perm.Basic

namespace RoundRobin

open List

/-- **Every place comes up.**  What holds at the turns of one place and is passed back from
each turn to the one before it holds at every turn. -/
theorem at_every_turn {ρ : Nat → Prop} {n j : Nat} (hj : j < n) (hhere : ∀ i, i % n = j → ρ i)
    (hback : ∀ i, ρ (i + 1) → ρ i) (i : Nat) : ρ i := by
  have hlater : ∀ k i, (i + k) % n = j → ρ i := by
    intro k
    induction k with
    | zero => exact fun i hi => hhere i hi
    | succ k ih =>
      intro i hi
      refine hback i (ih (i + 1) ?_)
      rw [← hi]
      congr 1
      omega
  refine hlater (n - i % n + j) i ?_
  have hlt : i % n < n := Nat.mod_lt i (by omega)
  have hsum : i + (n - i % n + j) = j + n * (i / n + 1) := by
    have hdiv := Nat.div_add_mod i n
    rw [Nat.mul_succ]
    omega
  rw [hsum, Nat.add_mul_mod_self_left, Nat.mod_eq_of_lt hj]

variable {α β : Type}

/-- A place that gives one more element adds that element to what all of them give. -/
theorem perm_flatMap_set {f : β → List α} {l : List β} {j : Nat} {b b' : β} {a : α}
    (hget : l[j]? = some b) (hmore : f b' = f b ++ [a]) :
    ((l.set j b').flatMap f).Perm (l.flatMap f ++ [a]) := by
  induction l generalizing j with
  | nil => simp at hget
  | cons c l ih =>
    cases j with
    | zero =>
      obtain rfl : c = b := by simpa using hget
      simp only [set_cons_zero, flatMap_cons, hmore, append_assoc]
      exact .append_left _ perm_append_comm
    | succ j =>
      simp only [set_cons_succ, flatMap_cons, append_assoc]
      exact .append_left _ (ih (by simpa using hget))

/-- Where at most one of the places gives elements of a kind, all of them together give no
more of that kind than one place does. -/
theorem countP_flatMap_le {f : β → List α} {p : α → Bool} {bound : Nat} {l : List β}
    (hone : l.Pairwise fun b c => (f b).countP p = 0 ∨ (f c).countP p = 0)
    (hbound : ∀ b ∈ l, (f b).countP p ≤ bound) : (l.flatMap f).countP p ≤ bound := by
  induction l with
  | nil => simp
  | cons b l ih =>
    obtain ⟨hb, hone⟩ := pairwise_cons.mp hone
    have hrest := ih hone fun c hc => hbound c (mem_cons_of_mem b hc)
    rw [flatMap_cons, countP_append]
    rcases Nat.eq_zero_or_pos ((f b).countP p) with hzero | hpos
    · omega
    have hnone : (l.flatMap f).countP p = 0 := by
      rw [countP_eq_zero]
      intro a ha
      obtain ⟨c, hc, ha⟩ := mem_flatMap.mp ha
      exact countP_eq_zero.mp ((hb c hc).resolve_left (by omega)) a ha
    have := hbound b mem_cons_self
    omega

end RoundRobin
