/-
Lists that a separator cuts into parts.

A part without the separator is found again from either end of a list.  What stands before
the last separator may hold any number of them.
-/
import Mathlib.Data.List.Basic

namespace Separated

open List

variable {α β : Type*} {c : α}

/-- The part behind the last separator. -/
theorem last_inj {x y u v : List α} (hu : c ∉ u) (hv : c ∉ v)
    (h : x ++ c :: u = y ++ c :: v) : x = y ∧ u = v := by
  -- A side that is longer than the other has a separator behind its last one.
  have hnone : ∀ {t u v : List α}, c ∉ u → c :: u = t ++ c :: v → t = [] := by
    intro t u v hu ht
    cases t with
    | nil => rfl
    | cons d t =>
      rw [cons_append] at ht
      refine absurd ?_ hu
      rw [(List.cons.inj ht).2]
      simp
  rcases append_eq_append_iff.mp h with ⟨t, rfl, ht⟩ | ⟨t, rfl, ht⟩
  · obtain rfl := hnone hu ht
    exact ⟨(append_nil x).symm, (List.cons.inj ht).2⟩
  · obtain rfl := hnone hv ht
    exact ⟨append_nil y, (List.cons.inj ht).2.symm⟩

/-- The part before the first separator. -/
theorem first_inj {x y u v : List α} (hu : c ∉ u) (hv : c ∉ v)
    (h : u ++ c :: x = v ++ c :: y) : u = v ∧ x = y := by
  have hrev := congrArg List.reverse h
  simp only [reverse_append, reverse_cons, append_assoc, singleton_append] at hrev
  obtain ⟨hx, hu⟩ := last_inj (by simpa using hu) (by simpa using hv) hrev
  exact ⟨reverse_injective hu, reverse_injective hx⟩

/-- Lines that two lists end with, as many in the one as in the other. -/
theorem lines_inj {f g : β → List α} : ∀ {l : List β} {x y : List α}, (∀ b ∈ l, c ∉ f b ∧ c ∉ g b) →
    x ++ c :: l.flatMap (fun b => f b ++ [c]) = y ++ c :: l.flatMap (fun b => g b ++ [c]) →
    x = y ∧ ∀ b ∈ l, f b = g b := by
  intro l
  induction l with
  | nil =>
    intro x y _ h
    exact ⟨append_cancel_right h, by simp⟩
  | cons b l ih =>
    intro x y hfree h
    simp only [flatMap_cons, append_assoc, singleton_append] at h
    rw [← cons_append, ← append_assoc, ← cons_append, ← append_assoc] at h
    obtain ⟨hlines, hrest⟩ := ih (fun d hd => hfree d (mem_cons_of_mem b hd)) h
    obtain ⟨hf, hg⟩ := hfree b mem_cons_self
    obtain ⟨hxy, hb⟩ := last_inj hf hg hlines
    exact ⟨hxy, forall_mem_cons.mpr ⟨hb, hrest⟩⟩

end Separated
