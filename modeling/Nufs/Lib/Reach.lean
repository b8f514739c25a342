/-
Reachability from roots, when the edges into one node change.

A graph is a relation.  Changing the edges into a node keeps everything reached, as soon
as the node itself is reached again; and it is, if its new edge starts at a node that is
not below it.  Where every node has at most one edge into it and roots have none, what is
reached is on no cycle.
-/
import Mathlib.Logic.Relation

namespace Reach

open Relation

variable {α : Type} {R : α → Prop} {E E' : α → α → Prop}

/-- A root leads to the node. -/
def Reached (R : α → Prop) (E : α → α → Prop) (x : α) : Prop :=
  ∃ r, R r ∧ ReflTransGen E r x

theorem Reached.root {r : α} (h : R r) : Reached R E r := ⟨r, h, ReflTransGen.refl⟩

variable {x d : α}

theorem Reached.step {y : α} (h : Reached R E x) (hxy : E x y) : Reached R E y := by
  obtain ⟨r, hr, hpath⟩ := h
  exact ⟨r, hr, hpath.tail hxy⟩

theorem Reached.mono (h : Reached R E x) (hle : ∀ a b, E a b → E' a b) : Reached R E' x := by
  obtain ⟨r, hr, hpath⟩ := h
  exact ⟨r, hr, .mono hle _ _ hpath⟩

/-- A path to a node that is not below `d` has no edge into `d`. -/
theorem Reached.avoid (h : Reached R E x) (hbelow : ¬ ReflTransGen E d x)
    (hkeep : ∀ a b, b ≠ d → E a b → E' a b) : Reached R E' x := by
  obtain ⟨r, hr, hpath⟩ := h
  refine ⟨r, hr, ?_⟩
  induction hpath with
  | refl => exact .refl
  | @tail b c _ hbc ih =>
    have hb : ¬ ReflTransGen E d b := fun hdb => hbelow (hdb.tail hbc)
    have hne : c ≠ d := by
      intro hcd
      exact hbelow (hcd ▸ ReflTransGen.refl)
    exact (ih hb).tail (hkeep b c hne hbc)

/-- Once `d` is reached again, so is everything else. -/
theorem Reached.rejoin (h : Reached R E x) (hd : Reached R E' d)
    (hkeep : ∀ a b, b ≠ d → E a b → E' a b) : Reached R E' x := by
  obtain ⟨r, hr, hpath⟩ := h
  induction hpath with
  | refl => exact .root hr
  | @tail b c _ hbc ih =>
    by_cases hne : c = d
    · rw [hne]
      exact hd
    · exact ih.step (hkeep b c hne hbc)

/-- From a node without edges only itself is reached. -/
theorem eq_of_leaf (hleaf : ∀ y, ¬ E d y) (h : ReflTransGen E d x) : x = d := by
  rcases ReflTransGen.cases_head h with heq | ⟨y, hdy, -⟩
  · exact heq.symm
  · exact absurd hdy (hleaf y)

/-- Nothing that is reached is on a cycle. -/
theorem Reached.acyclic (h : Reached R E x) (hroot : ∀ a r, R r → ¬ E a r)
    (honce : ∀ a b c d, E a c → E b c → E c d → a = b) : ¬ TransGen E x x := by
  obtain ⟨r, hr, hpath⟩ := h
  induction hpath with
  | refl =>
    intro hcycle
    obtain ⟨a, -, har⟩ := TransGen.tail'_iff.mp hcycle
    exact hroot a r hr har
  | @tail b c _ hbc ih =>
    intro hcycle
    -- the edge back into `c` is the one from `b`, so `b` is on the cycle as well
    obtain ⟨a, hca, hac⟩ := TransGen.tail'_iff.mp hcycle
    obtain ⟨d, hcd, hdc⟩ := TransGen.head'_iff.mp hcycle
    obtain rfl : a = b := honce a b c d hac hbc hcd
    rcases ReflTransGen.cases_head hca with heq | ⟨e, hce, hea⟩
    · rw [heq] at hcycle
      exact ih hcycle
    · exact ih (.head hac (.head' hce hea))

end Reach
