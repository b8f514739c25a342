/-
The greatest number of a list, found by a loop.

A loop that keeps the larger of what it has and what it sees ends with the least upper bound
of its start and the list.
-/
import Mathlib.Order.Basic

namespace Maximum

open List

variable {l : List Nat} {a b : Nat}

theorem foldl_max_le : l.foldl max a ≤ b ↔ a ≤ b ∧ ∀ x ∈ l, x ≤ b := by
  induction l generalizing a with
  | nil => simp
  | cons x l ih =>
    rw [foldl_cons, ih, forall_mem_cons, Nat.max_le]
    exact and_assoc

theorem le_foldl_max : a ≤ l.foldl max a ∧ ∀ x ∈ l, x ≤ l.foldl max a :=
  foldl_max_le.mp (Nat.le_refl _)

theorem le_foldr_max (h : a ∈ l) : a ≤ l.foldr max 0 := by
  induction l with
  | nil => simp at h
  | cons b l ih =>
    rcases mem_cons.mp h with rfl | h
    · exact Nat.le_max_left _ _
    · exact Nat.le_trans (ih h) (Nat.le_max_right _ _)

theorem foldr_max_mem (l : List Nat) : l.foldr max 0 = 0 ∨ l.foldr max 0 ∈ l := by
  induction l with
  | nil => exact .inl rfl
  | cons a l ih =>
    rw [foldr_cons]
    rcases Nat.le_total (l.foldr max 0) a with hle | hle
    · exact .inr (by rw [Nat.max_eq_left hle]; exact (.head _))
    · rw [Nat.max_eq_right hle]
      exact ih.imp_right (mem_cons_of_mem _)

end Maximum
