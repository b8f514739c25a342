/-
The order of byte strings, and the range of the strings with a common front.

Byte strings are compared like words in a dictionary.  The strings that start with a
given one are those from it up to the one with its last byte incremented.
-/
import Mathlib.Data.List.Lex

namespace ByteOrder

open List

/-- A byte string as it is compared. -/
def rank (bs : List UInt8) : List Nat := bs.map UInt8.toNat

theorem rank_injective : Function.Injective rank :=
  map_injective_iff.mpr fun _ _ => UInt8.toNat_inj.mp

/-- The first string above all strings that start with `bs`; none, if there is none. -/
def upperBound (bs : List UInt8) : Option (List UInt8) :=
  match bs.reverse.dropWhile (· == 0xFF) with
  | [] => none
  | b :: front => some (front.reverse ++ [b + 1])

/-- The string is in the range from `lower` up to `upper`. -/
def inRange (lower : List UInt8) (upper : Option (List UInt8)) (bs : List UInt8) : Bool :=
  decide (rank lower ≤ rank bs) && upper.all fun u => decide (rank bs < rank u)

/-- Numbers in the range of a front that ends below a bound. -/
theorem mem_range_iff (q : List Nat) (b : Nat) (k : List Nat) :
    q ++ [b] ≤ k ∧ k < q ++ [b + 1] ↔ q ++ [b] <+: k := by
  rw [← not_lt]
  induction q generalizing k with
  | nil =>
    cases k with
    | nil => simp
    | cons c k =>
      simp only [nil_append, cons_lt_cons_iff, cons_prefix_cons,
        nil_prefix, and_true, not_lt_nil, and_false, or_false]
      omega
  | cons a q ih =>
    cases k with
    | nil => simp
    | cons c k =>
      simp only [cons_append, cons_lt_cons_iff, cons_prefix_cons]
      rw [← ih]
      by_cases hac : a = c
      · subst hac
        simp
      · have hca : c ≠ a := fun h => hac h.symm
        simp only [hac, hca, false_and, or_false, iff_false, not_and, not_lt]
        intro hle
        exact hle

/-- **The range of a front.**  A string is in it if it starts with the front. -/
theorem inRange_upperBound (q : List UInt8) (b : UInt8) (hb : b ≠ 0xFF) (bs : List UInt8) :
    inRange (q ++ [b]) (upperBound (q ++ [b])) bs = true ↔ q ++ [b] <+: bs := by
  have hupper : upperBound (q ++ [b]) = some (q ++ [b + 1]) := by
    simp [upperBound, hb]
  have hnext : (b + 1).toNat = b.toNat + 1 := by
    have hlt : b.toNat ≠ 255 := fun h => hb (UInt8.toNat_inj.mp h)
    have := b.toNat_lt
    rw [UInt8.toNat_add]
    have hone : (1 : UInt8).toNat = 1 := rfl
    omega
  have hrange := mem_range_iff (rank q) b.toNat (rank bs)
  rw [inRange, hupper, Bool.and_eq_true, decide_eq_true_iff, Option.all_some, decide_eq_true_iff]
  simp only [rank, map_append, map_cons, map_nil, hnext] at hrange ⊢
  rw [hrange]
  constructor
  · rintro ⟨rest, hrest⟩
    have hlen : (q.map UInt8.toNat ++ [b.toNat]) = (bs.map UInt8.toNat).take (q.length + 1) := by
      rw [← hrest, take_append_of_le_length (by simp)]
      rw [take_of_length_le (by simp)]
    have heq : q ++ [b] = bs.take (q.length + 1) := by
      apply rank_injective
      simpa [rank, map_take] using hlen
    rw [heq]
    exact take_prefix _ bs
  · intro h
    simpa using h.map UInt8.toNat

end ByteOrder
