/-
Lists that are sorted by a key.

Elements with distinct keys have one sorted order, whatever order they are given in.  A
pass over a sorted list that compares each key with the one before it finds every key
that occurs twice.
-/
import Mathlib.Data.List.Sort

namespace KeySort

open List

variable {α κ : Type} [LinearOrder κ] (key : α → κ)

/-- The list in the order of its keys. -/
def sortBy (l : List α) : List α := l.insertionSort fun a b => key a ≤ key b

theorem sortBy_perm (l : List α) : (sortBy key l).Perm l := perm_insertionSort _ l

theorem sortBy_pairwise (l : List α) : (sortBy key l).Pairwise fun a b => key a ≤ key b := by
  have htotal : Std.Total fun a b => key a ≤ key b := ⟨fun a b => le_total (key a) (key b)⟩
  have htrans : IsTrans α fun a b => key a ≤ key b := ⟨fun _ _ _ => le_trans⟩
  exact pairwise_insertionSort _ l

variable {key}

variable {l : List α} {before : Option κ}

theorem mem_sortBy {a : α} : a ∈ sortBy key l ↔ a ∈ l := (sortBy_perm key l).mem_iff

theorem sortBy_eq_self (h : l.Pairwise fun a b => key a ≤ key b) : sortBy key l = l :=
  h.insertionSort_eq

/-- **One sorted order.**  Permuting a list with distinct keys does not change how it is sorted. -/
theorem sortBy_eq_of_perm {l' : List α} (hperm : l.Perm l') (hnodup : (l.map key).Nodup) :
    sortBy key l = sortBy key l' := by
  have hboth : (sortBy key l).Perm (sortBy key l') :=
    (sortBy_perm key l).trans (hperm.trans (sortBy_perm key l').symm)
  refine hboth.eq_of_pairwise ?_ (sortBy_pairwise key l) (sortBy_pairwise key l')
  intro a b ha hb hab hba
  have ha' : a ∈ l := mem_sortBy.mp ha
  have hb' : b ∈ l := hperm.mem_iff.mpr (mem_sortBy.mp hb)
  exact inj_on_of_nodup_map hnodup ha' hb' (le_antisymm hab hba)

/-! ### Checking a sorted list -/

variable {ε : Type}

/-- Check the elements in order; the key of each has to differ from the one before it. -/
def checkEach (check : α → Except ε Unit) (key : α → κ) (twice : α → ε) :
    Option κ → List α → Except ε Unit
  | _, [] => .ok ()
  | before, a :: as => do
      check a
      if before = some (key a) then .error (twice a)
      else checkEach check key twice (some (key a)) as

variable {check : α → Except ε Unit} {twice : α → ε}

theorem checkEach_cons {a : α} {as : List α}
    (h : checkEach check key twice before (a :: as) = .ok ()) :
    check a = .ok () ∧ before ≠ some (key a) ∧
      checkEach check key twice (some (key a)) as = .ok () := by
  rw [checkEach] at h
  cases hcheck : check a with
  | error e => simp [hcheck, bind, Except.bind] at h
  | ok u =>
    simp only [hcheck, bind, Except.bind] at h
    by_cases hbefore : before = some (key a)
    · simp [hbefore] at h
    · rw [if_neg hbefore] at h
      exact ⟨rfl, hbefore, h⟩

theorem check_of_checkEach (h : checkEach check key twice before l = .ok ()) :
    ∀ a ∈ l, check a = .ok () := by
  induction l generalizing before with
  | nil => simp
  | cons a as ih =>
    obtain ⟨hcheck, -, hrest⟩ := checkEach_cons h
    exact forall_mem_cons.mpr ⟨hcheck, ih hrest⟩

/-- The keys of a sorted list that passes increase. -/
theorem pairwise_lt_of_checkEach (hsorted : l.Pairwise fun a b => key a ≤ key b)
    (h : checkEach check key twice before l = .ok ()) : l.Pairwise fun a b => key a < key b := by
  induction l generalizing before with
  | nil => exact .nil
  | cons a as ih =>
    obtain ⟨-, -, hrest⟩ := checkEach_cons h
    obtain ⟨hle, hsorted⟩ := pairwise_cons.mp hsorted
    refine pairwise_cons.mpr ⟨?_, ih hsorted hrest⟩
    cases as with
    | nil => simp
    | cons b bs =>
      obtain ⟨-, hne, -⟩ := checkEach_cons hrest
      have hab : key a < key b :=
        lt_of_le_of_ne (hle b (.head _)) fun heq => hne (congrArg some heq)
      refine forall_mem_cons.mpr ⟨hab, fun c hc => ?_⟩
      exact lt_of_lt_of_le hab ((pairwise_cons.mp hsorted).1 c hc)

theorem nodup_of_pairwise_lt (h : l.Pairwise fun a b => key a < key b) : (l.map key).Nodup := by
  rw [List.Nodup, pairwise_map]
  exact h.imp fun hlt => ne_of_lt hlt

/-- The keys of a list that passes once it is sorted are distinct. -/
theorem nodup_of_checkEach (h : checkEach check key twice before (sortBy key l) = .ok ()) :
    (l.map key).Nodup := by
  have hlt := pairwise_lt_of_checkEach (sortBy_pairwise key l) h
  exact ((sortBy_perm key l).map key).nodup_iff.mp (nodup_of_pairwise_lt hlt)

end KeySort
