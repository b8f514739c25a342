/-
Chunk IDs go up.

Read as a number of mixed base, time, node and sequence of the generator only go up, and
an ID is that number as long as each of the parts fits its bits.  The times stay below
their limit if nobody pins the generator near it; but while the clock stands at the
generator's own time, nothing keeps the sequence in its thirteen bits.
-/
import Mathlib.Data.Nat.Bitwise
import Nufs.Lib.Guarded
import Nufs.Metadata.ChunkIds

namespace Nufs.ChunkIds

/-- **The condition on a call**, in the state it finds: time and sequence stay in their bits. -/
def InBits (h : History) : Call → Prop
  | .next ts => ts < 0x20000000000 ∧ (ts = h.gen.lastTS → h.gen.sequence < 0x1FFF) ∧
      (ts < h.gen.lastTS → h.gen.sequence = 0x1FFF → h.gen.lastTS + 1 < 0x20000000000)
  | .bumpAbove floor => floor.toNat < 0xFFFFFFFFFF800000

instance (h : History) : ∀ c, Decidable (InBits h c)
  | .next _ => inferInstanceAs (Decidable (_ ∧ _))
  | .bumpAbove _ => inferInstanceAs (Decidable (_ < _))

namespace ChunkIDGenerator

variable {g : ChunkIDGenerator}

/-- Time, node and sequence as one number. -/
def position (g : ChunkIDGenerator) : Int :=
  g.lastTS * 0x800000 + g.nodeID * 0x2000 + g.sequence

structure Fits (g : ChunkIDGenerator) : Prop where
  nonneg : 0 ≤ g.lastTS
  time : g.lastTS < 0x20000000000
  sequence : g.sequence ≤ 0x1FFF

theorem Fits.chunkID (h : g.Fits) : (g.chunkID : Int) = g.position := by
  obtain ⟨hnonneg, htime, hseq⟩ := h
  have hnode := g.nodeID.isLt
  have hmask : g.sequence &&& 0x1FFF = g.sequence := by
    rw [Nat.and_two_pow_sub_one_eq_mod _ 13]
    exact Nat.mod_eq_of_lt (by omega)
  rw [ChunkIDGenerator.chunkID, Int.emod_eq_of_lt hnonneg htime, hmask, Nat.lor_assoc,
    ← Nat.shiftLeft_add_eq_or_of_lt (show g.sequence < 2 ^ 13 by omega),
    ← Nat.shiftLeft_add_eq_or_of_lt (by rw [Nat.shiftLeft_eq]; omega), position]
  simp only [Nat.shiftLeft_eq]
  omega

theorem Fits.advance (h : g.Fits) {ts : Int} {seen : List Nat} (hin : InBits ⟨g, seen⟩ (.next ts)) :
    (g.advance ts).Fits ∧ g.position < (g.advance ts).position := by
  obtain ⟨hlimit, hequal, hbehind⟩ := hin
  obtain ⟨hnonneg, htime, hseq⟩ := h
  have hnode := g.nodeID.isLt
  dsimp only at hequal hbehind
  unfold ChunkIDGenerator.advance
  split_ifs with hlt hfree heq
  all_goals
    refine ⟨⟨?_, ?_, ?_⟩, ?_⟩
    all_goals
      simp only [position]
      omega

/-- A floor is below the position it raises the generator to. -/
theorem Fits.bumpAbove (h : g.Fits) {floor : UInt64} (hfloor : floor.toNat < 0xFFFFFFFFFF800000) :
    (g.bumpAbove floor).Fits ∧ g.position ≤ (g.bumpAbove floor).position ∧
      (floor.toNat : Int) ≤ (g.bumpAbove floor).position := by
  obtain ⟨hnonneg, htime, hseq⟩ := h
  have hnode := g.nodeID.isLt
  simp only [ChunkIDGenerator.bumpAbove, Nat.shiftRight_eq_div_pow]
  split_ifs
  · refine ⟨⟨?_, ?_, ?_⟩, ?_, ?_⟩
    all_goals
      simp only [position]
      omega
  · refine ⟨⟨hnonneg, htime, hseq⟩, Int.le_refl _, ?_⟩
    simp only [position]
    omega

end ChunkIDGenerator

/-- **The invariant.**  The generator fits its bits, and what was seen is not above it. -/
structure History.Below (h : History) : Prop where
  fits : h.gen.Fits
  seen : ∀ x ∈ h.seen, (x : Int) ≤ h.gen.position

theorem History.Below.step {h h' : History} {c : Call} (hb : h.Below) (hin : InBits h c)
    (hstep : ChunkIds.step h c = some h') : h'.Below := by
  cases c with
  | next ts =>
    cases hstep
    obtain ⟨hfits, hlt⟩ := hb.fits.advance hin
    refine ⟨hfits, List.forall_mem_cons.mpr ⟨Int.le_of_eq hfits.chunkID, fun x hx => ?_⟩⟩
    exact Int.le_trans (hb.seen x hx) (Int.le_of_lt hlt)
  | bumpAbove floor =>
    cases hstep
    obtain ⟨hfits, hle, hfloor⟩ := hb.fits.bumpAbove hin
    refine ⟨hfits, List.forall_mem_cons.mpr ⟨hfloor, fun x hx => ?_⟩⟩
    exact Int.le_trans (hb.seen x hx) hle

/--
**Chunk IDs go up.**  After any calls that keep time and sequence in their bits, an ID that
`Next` returns is above every ID returned and every floor given before.
-/
theorem next_exceeds (nodeID : UInt64) (calls : List Call) (h : History) (ts : Int)
    (hmeets : Guarded.Meets step InBits calls ⟨.new nodeID, []⟩)
    (hrun : Guarded.run step calls ⟨.new nodeID, []⟩ = some h) (hin : InBits h (.next ts)) :
    ∀ x ∈ h.seen, x < (h.gen.next ts).1 := by
  have hstart : History.Below ⟨.new nodeID, []⟩ :=
    ⟨⟨Int.le_refl 0, Int.sign_eq_one_iff_pos.mp rfl, Nat.zero_le _⟩, by simp⟩
  have hb := Guarded.run_invariant (fun _ _ _ hb hin => hb.step hin) hstart hmeets hrun
  obtain ⟨hfits, hlt⟩ := hb.fits.advance hin
  intro x hx
  have hle := hb.seen x hx
  have hid := hfits.chunkID
  show x < (h.gen.advance ts).chunkID
  omega

/-- The clock goes back, and a floor pins the generator. -/
theorem next_exceeds_pinned : 0xFFFFFFFF < (ChunkIDGenerator.next ⟨3, 0, 512⟩ 8).1 :=
  next_exceeds 3 [.next 7, .next 5, .bumpAbove 0xFFFFFFFF]
    ⟨⟨3, 0, 512⟩, [0xFFFFFFFF, 58744833, 58744832]⟩ 8 (by decide) rfl (by decide) _ (.head _)

/-- While the clock stands, calls only count the sequence up. -/
theorem run_standing (node : Fin 0x400) (ts : Int) (n q : Nat) (seen : List Nat)
    (hn : q + n < 0x10000000000000000) :
    ∃ seen', Guarded.run step (.replicate n (.next ts)) ⟨⟨node, q, ts⟩, seen⟩ =
      some ⟨⟨node, q + n, ts⟩, seen'⟩ ∧ seen ⊆ seen' := by
  induction n generalizing q seen with
  | zero => exact ⟨seen, rfl, List.Subset.refl _⟩
  | succ n ih =>
    have hstand : ChunkIDGenerator.advance ⟨node, q, ts⟩ ts = ⟨node, q + 1, ts⟩ := by
      simp [ChunkIDGenerator.advance, Nat.mod_eq_of_lt (show q + 1 < 0x10000000000000000 by omega)]
    obtain ⟨seen', hrun, hsub⟩ := ih (q + 1) (ChunkIDGenerator.chunkID ⟨node, q + 1, ts⟩ :: seen)
      (by omega)
    refine ⟨seen', ?_, fun x hx => hsub (.tail _ hx)⟩
    rw [List.replicate_succ, Guarded.run]
    simp only [step, ChunkIDGenerator.next, hstand, Option.bind_some, hrun]
    rw [Nat.succ_add_eq_add_succ]

/-- The 8193rd ID of a millisecond is the first one again. -/
theorem standing_clock_repeats : ∃ h,
    Guarded.run step (.next 5 :: .replicate 8191 (.next 5)) ⟨.new 1, []⟩ = some h ∧
      (h.gen.next 5).1 ∈ h.seen := by
  have hfirst : ∀ n, Guarded.run step (.next 5 :: .replicate n (.next 5)) ⟨.new 1, []⟩ =
      Guarded.run step (.replicate n (.next 5)) ⟨⟨1, 0, 5⟩, [41951232]⟩ := fun _ => rfl
  obtain ⟨seen, hrun, hsub⟩ := run_standing 1 5 8191 0 [41951232] (by decide)
  have hagain : (ChunkIDGenerator.next ⟨1, 8191, 5⟩ 5).1 = 41951232 := by decide
  exact ⟨_, (hfirst 8191).trans hrun, hsub (List.mem_singleton.mpr hagain)⟩

end Nufs.ChunkIds
