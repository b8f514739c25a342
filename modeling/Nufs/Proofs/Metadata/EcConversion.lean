/-
Published chunks keep their stripes and their shards, where runs do not come too late.

The requests of a conversion write the state they are about whatever state the stripe is
in, and every conversion of a chunk uses the same stripe.  What is published stays as long
as no request but the completing one is made for a stripe that a chunk is served from, and
no conversion of a chunk goes on while the chunk is swept.
-/
import Nufs.Metadata.EcConversion
import Nufs.Proofs.Metadata.EcStripes
import Nufs.Proofs.Metadata.PlanShards

namespace Nufs.Ec

open Nufs.Metadata Nufs.Chunks Option

theorem stripeOf_injective {a b : ChunkID} (h : stripeOf a = stripeOf b) : a = b := by
  unfold stripeOf at h
  exact decimal_injective (List.append_cancel_left h)

/-- How many shards of its chunk a run has written since it began. -/
def RunPhase.covered : RunPhase → Nat
  | .writing k => k
  | .syncing | .complete | .switching _ _ => totalShards
  | _ => 0

/-- What the planner keeps of a stripe. -/
theorem planShards_keeps {turns : Nat} {st st' : ECStripe} {disks : List ECDisk}
    (h : planShards turns st disks = some (.ok st')) :
    st'.stripeID = st.stripeID ∧ st'.extentID = st.extentID := by
  rw [planShards] at h
  split_ifs at h
  · cases h
  · cases h
  · cases h
  obtain ⟨plan, -, hplan⟩ := map_eq_some_iff.mp h
  split_ifs at hplan
  cases hvalid : validate plan with
  | error e => simp [hvalid, Except.map] at hplan
  | ok n =>
    simp only [hvalid, Except.map, Except.ok.injEq] at hplan
    exact hplan ▸ ⟨rfl, rfl⟩

theorem some_of_update {κ α : Type} [DecidableEq κ] {f : κ → Option α} {m n : κ} {v : Option α}
    {x : α} (h : Function.update f n v m = some x) : m = n ∧ v = some x ∨ f m = some x := by
  by_cases heq : m = n
  · subst heq
    exact .inl ⟨rfl, by simpa using h⟩
  · exact .inr (by simpa [heq] using h)

namespace World

/-! ### The property and its condition -/

/-- Every chunk whose row names a stripe has a complete one there, and none of its shards has
been deleted. -/
def Published (w : World) : Prop :=
  ∀ c chunk, w.reg.chunks c = some chunk → chunk.ecStripeID ≠ [] →
    (∃ st, w.reg.stripes.get chunk.ecStripeID = some st ∧ st.state = .complete) ∧
      ∀ i < totalShards, w.deleted c i = false

/-- No row names a stripe, and no switch that has read it is about to make a row name it. -/
def Unnamed (w : World) (stripeID : List Char) : Prop :=
  (∀ c chunk, w.reg.chunks c = some chunk → chunk.ecStripeID ≠ stripeID) ∧
    ∀ run r st chunk, w.runs run = some r → r.phase = .switching st chunk →
      st.stripeID ≠ stripeID

/-- No sweep of a chunk is under way. -/
def Unswept (w : World) (c : ChunkID) : Prop := ∀ n s, w.sweeps n = some s → s.chunk ≠ c

/-- No run of a chunk is under way. -/
def Idle (w : World) (c : ChunkID) : Prop := ∀ run r, w.runs run = some r → r.chunk ≠ c

/--
The condition on a step: a conversion begins, plans, syncs and rolls back only on a stripe
that no chunk is served from; and conversions and sweeps of a chunk do not overlap.
-/
def InTime (w : World) : Event → Prop
  | .begin _ c _ _ => w.Unnamed (stripeOf c) ∧ w.Unswept c
  | .plan run _ _ _ | .markSyncing run _ | .rollback run _ _ =>
    ∀ r, w.runs run = some r → w.Unnamed (stripeOf r.chunk)
  | .sweepList _ c _ _ => w.Idle c
  | _ => True

/-! ### The invariant -/

/-- What holds of a run. -/
structure RunOk (w : World) (r : ConversionRun) : Prop where
  named : r.st.stripeID = stripeOf r.chunk ∧ r.st.extentID = r.chunk
  unswept : w.Unswept r.chunk
  kept : ∀ i < r.phase.covered, w.deleted r.chunk i = false
  switching : ∀ st chunk, r.phase = .switching st chunk →
    (st.stripeID = stripeOf r.chunk ∧ st.extentID = r.chunk ∧ ∀ x ∈ chunk, x.id = r.chunk) ∧
      ∃ st', w.reg.stripes.get st.stripeID = some st' ∧ st'.state = .complete

/-- What holds of a sweep: the row it has read is the one that is there, and it deletes
shards of a chunk only that is not served from them. -/
structure SweepOk (w : World) (s : Sweep) : Prop where
  read : ∀ governing chunk, s.phase = .read governing chunk → chunk = w.reg.chunks s.chunk
  deleting : s.phase = .deleting → ∀ chunk, w.reg.chunks s.chunk = some chunk →
    chunk.ecStripeID = []

/-- What every step in time keeps. -/
structure Inv (w : World) : Prop where
  published : w.Published
  keyed : ∀ c chunk, w.reg.chunks c = some chunk → chunk.id = c
  stripes : ∀ id st, w.reg.stripes.get id = some st → id = stripeOf st.extentID
  runs : ∀ run r, w.runs run = some r → w.RunOk r
  sweeps : ∀ n s, w.sweeps n = some s → w.SweepOk s

variable {w : World}

variable {st : ECStripe} {run : Nat} {r : ConversionRun}

theorem get_put_complete {id : List Char} (hst : st.state = .complete ∨ st.stripeID ≠ id)
    (hold : ∃ old, w.reg.stripes.get id = some old ∧ old.state = .complete) :
    ∃ new, (w.putStripe st).reg.stripes.get id = some new ∧ new.state = .complete := by
  show ∃ new, (w.reg.stripes.put st).get id = some new ∧ _
  rw [Stripes.get_put]
  split_ifs with hid
  · exact ⟨st, rfl, hst.resolve_right (not_not_intro hid)⟩
  · exact hold

/-- Writing a stripe: a complete one, or one that is not named. -/
theorem Inv.putStripe (h : w.Inv) (hid : st.stripeID = stripeOf st.extentID)
    (hst : st.state = .complete ∨ w.Unnamed st.stripeID) : (w.putStripe st).Inv where
  published := by
    intro c chunk hchunk hname
    obtain ⟨hstripe, hkept⟩ := h.published c chunk hchunk hname
    exact ⟨get_put_complete (hst.imp_right fun hu => (hu.1 c chunk hchunk).symm) hstripe, hkept⟩
  keyed := h.keyed
  stripes := by
    intro id old hget
    change (w.reg.stripes.put st).get id = some old at hget
    rw [Stripes.get_put] at hget
    split_ifs at hget with heq
    · cases hget
      exact heq.symm.trans hid
    · exact h.stripes id old hget
  runs := by
    intro run r hr
    obtain ⟨hnamed, hunswept, hkept, hswitching⟩ := h.runs run r hr
    refine ⟨hnamed, hunswept, hkept, fun st' chunk hphase => ?_⟩
    obtain ⟨hread, hget⟩ := hswitching st' chunk hphase
    exact ⟨hread,
      get_put_complete (hst.imp_right fun hu => (hu.2 run r st' chunk hr hphase).symm) hget⟩
  sweeps := fun n s hs => ⟨(h.sweeps n s hs).read, (h.sweeps n s hs).deleting⟩

/-- A run that goes on, begins or ends. -/
theorem Inv.setRun (h : w.Inv) {r? : Option ConversionRun} (hr : ∀ r, r? = some r → w.RunOk r) :
    (w.setRun run r?).Inv where
  published := h.published
  keyed := h.keyed
  stripes := h.stripes
  runs := by
    intro run' r hget
    have hok : w.RunOk r := (some_of_update hget).elim (hr r ·.2) (h.runs run' r)
    exact ⟨hok.named, hok.unswept, hok.kept, hok.switching⟩
  sweeps := fun n s hs => ⟨(h.sweeps n s hs).read, (h.sweeps n s hs).deleting⟩

variable {n : Nat} {chunk : ChunkMeta} {addrOf : NodeID → List Char}

/-- A sweep that goes on, begins or ends, on a chunk that no run is about. -/
theorem Inv.setSweep (h : w.Inv) {s? : Option Sweep}
    (hs : ∀ s, s? = some s → w.SweepOk s ∧ w.Idle s.chunk) : (w.setSweep n s?).Inv where
  published := h.published
  keyed := h.keyed
  stripes := h.stripes
  runs := by
    intro run r hr
    have hok := h.runs run r hr
    refine ⟨hok.named, fun m s hget => ?_, hok.kept, hok.switching⟩
    rcases some_of_update hget with ⟨-, hnew⟩ | hold
    · exact fun hc => (hs s hnew).2 run r hr hc.symm
    · exact hok.unswept m s hold
  sweeps := by
    intro m s hget
    have hok : w.SweepOk s := (some_of_update hget).elim (hs s ·.2 |>.1) (h.sweeps m s)
    exact ⟨hok.read, hok.deleting⟩

/-- A shard that is written, or deleted from a chunk that is neither published nor being
converted. -/
theorem Inv.setDeleted (h : w.Inv) {c : ChunkID} {index : Nat} {gone : Bool}
    (hgone : gone = true → w.Idle c ∧ ∀ chunk, w.reg.chunks c = some chunk →
      chunk.ecStripeID = []) : (w.setDeleted c index gone).Inv := by
  have hkeep : ∀ c' i, w.deleted c' i = false → (gone = true → c' ≠ c) →
      (w.setDeleted c index gone).deleted c' i = false := by
    intro c' i hold hne
    show (if c' = c ∧ i = index then gone else w.deleted c' i) = false
    split_ifs with heq
    · cases gone with
      | false => rfl
      | true => exact absurd heq.1 (hne rfl)
    · exact hold
  refine ⟨fun c' chunk hchunk hname => ?_, h.keyed, h.stripes, fun run r hr => ?_,
    fun n s hs => ⟨(h.sweeps n s hs).read, (h.sweeps n s hs).deleting⟩⟩
  · obtain ⟨hstripe, hkept⟩ := h.published c' chunk hchunk hname
    refine ⟨hstripe, fun i hi => hkeep c' i (hkept i hi) fun htrue heq => ?_⟩
    exact hname ((hgone htrue).2 chunk (heq ▸ hchunk))
  · have hok := h.runs run r hr
    exact ⟨hok.named, hok.unswept,
      fun i hi => hkeep r.chunk i (hok.kept i hi) fun htrue => (hgone htrue).1 run r hr,
      hok.switching⟩

/-- No run is about a chunk that is swept. -/
theorem Inv.idle (h : w.Inv) {s : Sweep} (hs : w.sweeps n = some s) : w.Idle s.chunk :=
  fun run r hr heq => (h.runs run r hr).unswept n s hs heq.symm

section

variable (h : w.Inv) (hr : w.runs run = some r)
include h hr

/-- The stripe a request works on is the one of the run's chunk. -/
theorem Inv.copyOf (remote : Bool) :
    (w.copyOf r remote).stripeID = stripeOf r.chunk ∧ (w.copyOf r remote).extentID = r.chunk := by
  have hnamed := (h.runs run r hr).named
  rw [World.copyOf]
  cases remote with
  | false => exact hnamed
  | true =>
    rw [if_pos rfl]
    cases hget : w.reg.stripes.get r.st.stripeID with
    | none => exact hnamed
    | some st =>
      have hid := Stripes.stripeID_of_get hget
      have hext := h.stripes _ st hget
      rw [hnamed.1] at hid hext
      exact ⟨hid, (stripeOf_injective hext).symm⟩

/-- A request of a run writes a stripe and keeps what the run has written so far. -/
theorem Inv.request {phase : RunPhase}
    (hid : st.stripeID = stripeOf r.chunk ∧ st.extentID = r.chunk)
    (hst : st.state = .complete ∨ w.Unnamed (stripeOf r.chunk))
    (hcovered : phase.covered ≤ r.phase.covered)
    (hphase : ∀ st chunk, phase ≠ .switching st chunk) :
    ((w.putStripe st).setRun run (some ⟨r.chunk, st, phase⟩)).Inv := by
  have hok := h.runs run r hr
  have hw := h.putStripe (hid.1.trans (by rw [hid.2])) (hst.imp_right fun hu => hid.1 ▸ hu)
  refine hw.setRun fun r' hr' => ?_
  cases hr'
  exact ⟨hid, hok.unswept, fun i hi => hok.kept i (lt_of_lt_of_le hi hcovered),
    fun st chunk heq => absurd heq (hphase st chunk)⟩

/-- A run writes its next shard. -/
theorem Inv.writeShard {k : Nat} (hphase : r.phase = .writing k) :
    ((w.setDeleted r.chunk k false).setRun run
      (some { r with phase := .writing (k + 1) })).Inv := by
  have hok := h.runs run r hr
  have hw : (w.setDeleted r.chunk k false).Inv := h.setDeleted (by simp)
  refine hw.setRun fun r' hr' => ?_
  cases hr'
  refine ⟨hok.named, hok.unswept, fun i hi => ?_, by simp⟩
  show (if r.chunk = r.chunk ∧ i = k then false else w.deleted r.chunk i) = false
  split_ifs with heq
  · rfl
  · refine hok.kept i ?_
    rw [hphase]
    simp only [RunPhase.covered] at hi ⊢
    simp only [true_and] at heq
    omega

/-- What is read first for a switch is the stripe of the run's chunk. -/
theorem Inv.switchStripe (hphase : r.phase = .complete)
    (hst : w.reg.stripes.get r.st.stripeID = some st) (hcomplete : st.state = .complete) :
    w.RunOk { r with phase := .switching st none } := by
  have hok := h.runs run r hr
  have hid := Stripes.stripeID_of_get hst
  have hname := h.stripes _ st hst
  rw [hok.named.1] at hid hname
  refine ⟨hok.named, hok.unswept, fun i hi => hok.kept i (by rw [hphase]; exact hi), ?_⟩
  intro st' chunk heq
  obtain ⟨rfl, rfl⟩ := RunPhase.switching.inj heq
  refine ⟨⟨hid, (stripeOf_injective hname).symm, by simp⟩, st, ?_, hcomplete⟩
  rw [hid, ← hok.named.1]
  exact hst

/-- What is read then is the row of that chunk. -/
theorem Inv.switchChunk (hphase : r.phase = .switching st none)
    (hchunk : w.reg.chunks st.extentID = some chunk) :
    w.RunOk { r with phase := .switching st (some chunk) } := by
  have hok := h.runs run r hr
  refine ⟨hok.named, hok.unswept, fun i hi => hok.kept i (by rw [hphase]; exact hi), ?_⟩
  intro st' chunk' heq
  obtain ⟨rfl, rfl⟩ := RunPhase.switching.inj heq
  obtain ⟨⟨hid, hext, -⟩, hget⟩ := hok.switching st none hphase
  refine ⟨⟨hid, hext, fun x hx => ?_⟩, hget⟩
  obtain rfl := some.inj hx
  exact (h.keyed _ chunk hchunk).trans hext

/-- The row of a chunk is switched to the stripe its run has read. -/
theorem Inv.switchWrite {reg : Registry}
    (hphase : r.phase = .switching st (some chunk))
    (hreg : w.reg.updateLiveChunk chunk (switchedLayout addrOf st chunk) = .ok reg) :
    World.Inv { w with reg } := by
  have hok := h.runs run r hr
  obtain ⟨⟨-, -, hread⟩, hget⟩ := hok.switching st (some chunk) hphase
  have hkey := hread chunk rfl
  obtain rfl : reg = { w.reg with
      chunks := Function.update w.reg.chunks r.chunk (some (switchedLayout addrOf st chunk)) } := by
    rw [Registry.updateLiveChunk] at hreg
    split_ifs at hreg
    rw [← Except.ok.inj hreg, ← hkey]
    rfl
  refine ⟨fun c new hnew hname => ?_, fun c new hnew => ?_, h.stripes, fun run' r' hr' => ?_,
    fun n s hs => ?_⟩
  · rcases some_of_update hnew with ⟨rfl, ⟨⟩⟩ | hold
    · exact ⟨hget, fun i hi => hok.kept i (by rw [hphase]; exact hi)⟩
    · exact h.published c new hold hname
  · rcases some_of_update hnew with ⟨rfl, ⟨⟩⟩ | hold
    · exact hkey
    · exact h.keyed c new hold
  · obtain ⟨hnamed, hunswept, hkept, hswitching⟩ := h.runs run' r' hr'
    exact ⟨hnamed, hunswept, hkept, hswitching⟩
  · -- The chunk is not being swept, so what a sweep has read of another chunk stays.
    have hrows := Function.update_of_ne (hok.unswept n s hs)
      (some (switchedLayout addrOf st chunk)) w.reg.chunks
    exact ⟨fun governing read hread => ((h.sweeps n s hs).read governing read hread).trans
        hrows.symm,
      fun hdel new hnew => (h.sweeps n s hs).deleting hdel new (hrows.symm.trans hnew)⟩

end

/-- **One step.** -/
theorem Inv.step (h : w.Inv) {e : Event} {w' : World} (hguard : w.InTime e)
    (hstep : w.step addrOf e = some w') : w'.Inv := by
  cases e with
  | begin run c gen sum =>
    simp only [World.step] at hstep
    split_ifs at hstep
    cases hstep
    refine (h.putStripe rfl (.inr hguard.1)).setRun fun r hr => ?_
    cases hr
    exact ⟨⟨rfl, rfl⟩, hguard.2, by simp [RunPhase.covered], by simp⟩
  | plan run turns remote disks =>
    obtain ⟨r, hr, hstep⟩ := bind_eq_some_iff.mp hstep
    split_ifs at hstep with hphase
    cases hplan : planShards turns (w.copyOf r remote) disks with
    | none => simp [hplan] at hstep
    | some res =>
      cases res with
      | error e => simp [hplan] at hstep
      | ok st =>
        simp only [hplan, some.injEq] at hstep
        subst hstep
        obtain ⟨hid, hext⟩ := planShards_keeps hplan
        obtain ⟨hcopy, hchunk⟩ := h.copyOf hr remote
        exact h.request hr ⟨hid.trans hcopy, hext.trans hchunk⟩ (.inr (hguard r hr))
          (Nat.zero_le _) (by simp)
  | writeShard run =>
    obtain ⟨r, hr, hstep⟩ := bind_eq_some_iff.mp hstep
    cases hphase : r.phase with
    | writing k =>
      simp only [hphase] at hstep
      split_ifs at hstep
      cases hstep
      exact h.writeShard hr hphase
    | _ => simp [hphase] at hstep
  | markSyncing run remote =>
    obtain ⟨r, hr, hstep⟩ := bind_eq_some_iff.mp hstep
    split_ifs at hstep with hphase
    cases hstep
    exact h.request hr (h.copyOf hr remote) (.inr (hguard r hr))
      (by rw [not_not.mp hphase]; exact le_rfl) (by simp)
  | complete run remote now =>
    obtain ⟨r, hr, hstep⟩ := bind_eq_some_iff.mp hstep
    split_ifs at hstep with hphase
    cases hstep
    exact h.request hr (h.copyOf hr remote) (.inl rfl)
      (by rw [not_not.mp hphase]; exact le_rfl) (by simp)
  | switchStripe run =>
    obtain ⟨r, hr, hstep⟩ := bind_eq_some_iff.mp hstep
    split_ifs at hstep with hphase
    obtain ⟨st, hst, hstep⟩ := bind_eq_some_iff.mp hstep
    split_ifs at hstep with hcomplete
    cases hstep
    refine h.setRun fun r' hr' => ?_
    cases hr'
    exact h.switchStripe hr (not_not.mp hphase) hst (not_not.mp hcomplete)
  | switchChunk run =>
    obtain ⟨r, hr, hstep⟩ := bind_eq_some_iff.mp hstep
    split at hstep
    · next st hphase =>
      obtain ⟨chunk, hchunk, hstep⟩ := bind_eq_some_iff.mp hstep
      cases hstep
      refine h.setRun fun r' hr' => ?_
      cases hr'
      exact h.switchChunk hr hphase hchunk
    · cases hstep
  | switchWrite run =>
    obtain ⟨r, hr, hstep⟩ := bind_eq_some_iff.mp hstep
    split at hstep
    · next st chunk hphase =>
      obtain ⟨reg, hreg, rfl⟩ := map_eq_some_iff.mp hstep
      cases hupdate : w.reg.updateLiveChunk chunk (switchedLayout addrOf st chunk) with
      | error e => simp [hupdate, Except.toOption] at hreg
      | ok new =>
        obtain rfl : new = reg := by simpa [hupdate, Except.toOption] using hreg
        exact (h.switchWrite hr hphase hupdate).setRun (by simp)
    · cases hstep
  | fail run =>
    obtain ⟨r, hr, hstep⟩ := bind_eq_some_iff.mp hstep
    have hfailing : w.RunOk { r with phase := .failing } := by
      have hok := h.runs run r hr
      exact ⟨hok.named, hok.unswept, by simp [RunPhase.covered], by simp⟩
    cases hphase : r.phase with
    | switching st chunk => simp [hphase] at hstep
    | _ =>
      simp only [hphase, some.injEq] at hstep
      subst hstep
      exact h.setRun fun r' hr' => some.inj hr' ▸ hfailing
  | rollback run remote now =>
    obtain ⟨r, hr, hstep⟩ := bind_eq_some_iff.mp hstep
    split_ifs at hstep
    cases hstep
    obtain ⟨hid, hext⟩ := h.copyOf hr remote
    have hw : (w.putStripe
        { w.copyOf r remote with state := .rolledBack, rolledBackAt := now }).Inv :=
      h.putStripe (hid.trans (by rw [← hext])) (.inr (hid ▸ hguard r hr))
    exact hw.setRun (by simp)
  | stop run =>
    cases hstep
    exact h.setRun (by simp)
  | sweepList n c olderThan now =>
    simp only [World.step] at hstep
    split_ifs at hstep
    cases hstep
    refine h.setSweep fun s hs => ?_
    cases hs
    exact ⟨⟨by simp, by simp⟩, hguard⟩
  | sweepChunk n =>
    obtain ⟨s, hs, hstep⟩ := bind_eq_some_iff.mp hstep
    cases hphase : s.phase with
    | listed governing =>
      simp only [hphase, some.injEq] at hstep
      subst hstep
      refine h.setSweep fun s' hs' => ?_
      cases hs'
      refine ⟨⟨fun governing' chunk heq => ?_, by simp⟩, fun run r hr => h.idle hs run r hr⟩
      exact (SweepPhase.read.inj heq).2.symm
    | _ => simp [hphase] at hstep
  | sweepDecide n =>
    obtain ⟨s, hs, hstep⟩ := bind_eq_some_iff.mp hstep
    cases hphase : s.phase with
    | read governing chunk =>
      simp only [hphase] at hstep
      split_ifs at hstep with hverdict
      · cases hstep
        refine h.setSweep fun s' hs' => ?_
        cases hs'
        refine ⟨⟨by simp, fun _ new hnew => ?_⟩, fun run r hr => h.idle hs run r hr⟩
        -- A chunk that is served from a stripe has a complete one, and is spared.
        by_contra hname
        obtain ⟨⟨st, hst, hcomplete⟩, -⟩ := h.published s.chunk new hnew hname
        have hread := (h.sweeps n s hs).read governing chunk hphase
        rw [hnew] at hread
        simp [verdict, Stripes.ownComplete, hread, hst, hcomplete, hname] at hverdict
      · cases hstep
        exact h.setSweep (by simp)
    | _ => simp [hphase] at hstep
  | deleteShard n index =>
    obtain ⟨s, hs, hstep⟩ := bind_eq_some_iff.mp hstep
    split_ifs at hstep with hphase
    cases hstep
    exact h.setDeleted fun _ =>
      ⟨h.idle hs, (h.sweeps n s hs).deleting (not_not.mp hphase)⟩
  | sweepEnd n =>
    cases hstep
    exact h.setSweep (by simp)

/-- Chunks that are all replicated, with no stripe and nothing under way. -/
def Start (w : World) : Prop :=
  w.reg.stripes.rows = [] ∧ (∀ c chunk, w.reg.chunks c = some chunk →
    chunk.id = c ∧ chunk.ecStripeID = []) ∧ (∀ run, w.runs run = none) ∧ ∀ n, w.sweeps n = none

theorem Start.inv (h : w.Start) : w.Inv := by
  obtain ⟨hstripes, hchunks, hruns, hsweeps⟩ := h
  refine ⟨fun c chunk hchunk hname => absurd (hchunks c chunk hchunk).2 hname,
    fun c chunk hchunk => (hchunks c chunk hchunk).1, fun id st hget => ?_, ?_, ?_⟩
  · simp [Stripes.get, hstripes] at hget
  · simp [hruns]
  · simp [hsweeps]

end World

/--
**Published chunks keep their shards.**  From chunks that are all replicated, in every run of
conversion steps and sweeps whose steps are all in time, every chunk whose row names a stripe
has a complete one there and none of its shards is deleted, in every state.
-/
theorem published_chunks_keep_shards {addrOf : NodeID → List Char} {events : List Event}
    {start w : World} (hstart : start.Start)
    (htime : Guarded.Meets (fun w e => w.step addrOf e) World.InTime events start)
    (hrun : Guarded.run (fun w e => w.step addrOf e) events start = some w) : w.Published :=
  (Guarded.run_invariant (fun _ _ _ hinv hguard hstep => hinv.step hguard hstep)
    hstart.inv htime hrun).published

/-- Chunk 7 as three replicas, and nothing else. -/
def replicatedWorld : World where
  reg :=
    { stripes := .empty
      chunks := fun c => if c = 7 then some ⟨7, 100, .ready, [], none, 0, 1, []⟩ else none
      tombstoned := fun _ => false }
  deleted := fun _ _ => false
  runs := fun _ => none
  sweeps := fun _ => none

theorem replicatedWorld_start : replicatedWorld.Start := by
  refine ⟨rfl, fun c chunk hchunk => ?_, fun _ => rfl, fun _ => rfl⟩
  simp only [replicatedWorld] at hchunk
  split_ifs at hchunk with hc
  cases hchunk
  exact ⟨hc.symm, rfl⟩

/-- A conversion of chunk 7 in run 0. -/
def conversion : List Event :=
  [.begin 0 7 1 0, .plan 0 10 false evenDisks] ++ List.replicate 9 (.writeShard 0) ++
    [.markSyncing 0 false, .complete 0 false 1, .switchStripe 0, .switchChunk 0,
      .switchWrite 0]

/-- The chunk is converted, and a sweep that comes much later leaves its shards alone. -/
theorem published_chunks_keep_shards_swept :
    let acts := conversion ++ [.sweepList 0 7 5 100, .sweepChunk 0, .sweepDecide 0]
    ∃ w, Guarded.run (fun w e => World.step w (fun _ => []) e) acts replicatedWorld = some w ∧
      (w.reg.chunks 7).map ChunkMeta.ecStripeID = some (stripeOf 7) ∧ w.Published := by
  intro acts
  obtain ⟨w, hrun⟩ : ∃ w, Guarded.run (fun w e => World.step w (fun _ => []) e) acts
    replicatedWorld = some w := ⟨_, rfl⟩
  have hnamed : ((Guarded.run (fun w e => World.step w (fun _ => []) e) acts replicatedWorld).bind
      fun w => w.reg.chunks 7).map ChunkMeta.ecStripeID = some (stripeOf 7) := by
    decide +kernel
  rw [hrun] at hnamed
  refine ⟨w, hrun, hnamed, published_chunks_keep_shards replicatedWorld_start ?_ hrun⟩
  have hrows : ∀ c chunk, replicatedWorld.reg.chunks c = some chunk →
      chunk.ecStripeID ≠ stripeOf 7 := by
    intro c chunk hchunk
    rw [(replicatedWorld_start.2.1 c chunk hchunk).2]
    decide
  refine .cons ⟨⟨hrows, by simp [replicatedWorld]⟩, by simp [World.Unswept, replicatedWorld]⟩ rfl
    (.cons ?plan rfl ?_)
  rotate_left
  iterate 9 refine .cons trivial rfl ?_
  refine .cons ?sync rfl (.cons trivial rfl (.cons trivial rfl (.cons trivial rfl
    (.cons trivial rfl (.cons ?sweep rfl (.cons trivial rfl (.cons trivial rfl trivial)))))))
  case sweep =>
    simp [World.InTime, World.Idle, World.setRun, World.putStripe, World.setDeleted,
      replicatedWorld]
  all_goals
    intro r hr
    obtain rfl := some.inj hr
    refine ⟨hrows, fun run r' st chunk hr' hphase => ?_⟩
    simp only [World.setRun, World.putStripe, World.setDeleted, replicatedWorld,
      Function.update_idem, Function.update_apply] at hr'
    split_ifs at hr'
    cases hr'
    cases hphase

/-- A conversion whose last answer is lost, the conversion that repeats it and fails, and a
sweep much later. -/
def repeatedConversion : List Event :=
  conversion ++ [.begin 1 7 1 0, .fail 1, .rollback 1 false 10,
    .sweepList 0 7 5 100, .sweepChunk 0, .sweepDecide 0, .deleteShard 0 3]

/-- A published chunk whose stripe is rolled back and whose shards are deleted. -/
theorem repeated_conversion_loses_shards :
    (Guarded.run (fun w e => World.step w (fun _ => []) e) repeatedConversion replicatedWorld).map
      (fun w => ((w.reg.chunks 7).map ChunkMeta.ecStripeID,
        (w.reg.stripes.get (stripeOf 7)).map ECStripe.state, w.deleted 7 3)) =
      some (some (stripeOf 7), some .rolledBack, true) := by
  decide +kernel

end Nufs.Ec
