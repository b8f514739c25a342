/-
Self-delimiting records in a byte string.

A reader takes the record at the front of a string and gives back what follows it.
Reading on until no record is found returns the records that were written, and stops
at a tail the reader does not take.
-/
import Mathlib.Data.List.Basic

namespace Stream

open List

variable {α β : Type}

/-- Read records until none is found, at most `fuel` of them. -/
def readAll (next : List β → Option (α × List β)) : Nat → List β → List α
  | 0, _ => []
  | fuel + 1, data =>
    match next data with
    | none => []
    | some (a, rest) => a :: readAll next fuel rest

/-- Each record is found in front of anything. -/
def Reads (next : List β → Option (α × List β)) (enc : α → List β) (a : α) : Prop :=
  ∀ rest, next (enc a ++ rest) = some (a, rest)

variable {next : List β → Option (α × List β)} {enc : α → List β}

/-- **Reading returns what was written**, and stops at a tail that is not a record. -/
theorem readAll_flatMap {as : List α} {tail : List β} {fuel : Nat}
    (hreads : ∀ a ∈ as, Reads next enc a) (htail : next tail = none) (hfuel : as.length ≤ fuel) :
    readAll next fuel (as.flatMap enc ++ tail) = as := by
  induction as generalizing fuel with
  | nil =>
    cases fuel with
    | zero => rfl
    | succ fuel =>
      show readAll next (fuel + 1) tail = []
      rw [readAll, htail]
  | cons a as ih =>
    obtain ⟨fuel, rfl⟩ : ∃ n, fuel = n + 1 := ⟨fuel - 1, by simp at hfuel; omega⟩
    have hhead : next ((a :: as).flatMap enc ++ tail) = some (a, as.flatMap enc ++ tail) := by
      rw [flatMap_cons, append_assoc]
      exact hreads a (.head _) _
    have hrest : readAll next fuel (as.flatMap enc ++ tail) = as :=
      ih (fun b hb => hreads b (mem_cons_of_mem a hb))
        (Nat.le_of_succ_le_succ (by simpa using hfuel))
    rw [readAll, hhead]
    show a :: readAll next fuel (as.flatMap enc ++ tail) = a :: as
    rw [hrest]

/-- A string of records that are not empty is at least as long as there are records. -/
theorem length_le_flatMap {as : List α} (hpos : ∀ a ∈ as, enc a ≠ []) :
    as.length ≤ (as.flatMap enc).length := by
  induction as with
  | nil => exact Nat.le_refl 0
  | cons a as ih =>
    have hhead : 0 < (enc a).length := length_pos_of_ne_nil (hpos a (.head _))
    have hrest := ih fun b hb => hpos b (mem_cons_of_mem a hb)
    rw [flatMap_cons, length_append, length_cons]
    omega

end Stream
