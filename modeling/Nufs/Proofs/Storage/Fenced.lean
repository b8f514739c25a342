/-
Generation fencing: one payload per extent and generation.

A `Write` compares its checksum with the known location of the extent before it is
committed, and nothing compares again at the commit.  Two writes that both looked
before either was committed are both acknowledged.  Where each commit meets an
extent that is unknown or known with the same checksum, every place that holds a
location of the extent holds this checksum, and no other one is ever acknowledged.
-/
import Nufs.Proofs.Storage.Sources

namespace Nufs.Storage

open ByteFile Option

/-- The store answers a lookup of the extent with this checksum. -/
def Store.Knows (s : Store) (k : Key) (sum : UInt32) : Prop :=
  ∃ v, s.lookup k = some v ∧ v.checksum = sum

theorem Store.Knows.unique {s : Store} {k : Key} {sum sum' : UInt32} (h : s.Knows k sum)
    (h' : s.Knows k sum') : sum = sum' := by
  obtain ⟨v, hv, rfl⟩ := h
  obtain ⟨v', hv', rfl⟩ := h'
  rw [hv] at hv'
  rw [some.inj hv']

namespace Machine

/-- A checksum that may be published for the extent: it is unknown, or known with this one. -/
def Fits (m : Machine) (k : Key) (sum : UInt32) : Prop :=
  ∀ v, m.store.lookup k = some v → v.checksum = sum
  deriving Decidable

/--
The step does what a check at the commit would have allowed: writes are committed
and locations published only where the extent is unknown or has the same checksum,
and the writes of one extent in one batch have the same payload checksum.
-/
def KeepsFence (m : Machine) : Action → Prop
  | .commit ts _ => ∀ batch, ts.mapM m.submitted = some batch →
      ∀ p ∈ batch, p.2.header.op = .put →
        Fits m p.2.key p.2.header.payloadChecksum ∧
          ∀ q ∈ batch, q.2.header.op = .put → q.2.key = p.2.key →
            q.2.header.payloadChecksum = p.2.header.payloadChecksum
  | .append k data _ _ _ => Fits m k (crc32c data)
  | .relocatePut r => Fits m r.key r.checksum
  | _ => True

instance (m : Machine) (a : Action) : Decidable (KeepsFence m a) := by
  cases a <;> (dsimp only [KeepsFence]; infer_instance)

/-- All locations of an extent have one checksum, and so has everything that was promised. -/
structure Fenced (m : Machine) : Prop where
  sound : Sound m
  agree : ∀ k v v', Holds m k v → Holds m k v' → v.checksum = v'.checksum
  deleting : ∀ t k v, m.calls.lookup t = some (.delete k, .submitted (Store.deletePending k v)) →
    m.store.Knows k v.checksum
  acked : ∀ k sum, .acked k sum ∈ m.log → m.store.Knows k sum

variable {m m' : Machine} {k : Key} {v : Value} {a : Action} {c : FrameCodec}

/-- What is held is known with its checksum. -/
theorem Fenced.knows (h : Fenced m) (hv : Holds m k v) : m.store.Knows k v.checksum := by
  obtain ⟨w, hw⟩ := isSome_iff_exists.mp (h.sound.known k v hv)
  exact ⟨w, hw, h.agree k w v (holds_of_lookup hw) hv⟩

/-! ### What may be published -/

/-- The members of a batch fit what is known, and each other. -/
theorem Fenced.batch_fits (h : Fenced m) {ts : List Thread} {now : UInt64}
    (hguard : KeepsFence m (.commit ts now)) {batch : List (Request × PendingWrite)}
    (hbatch : ts.mapM m.submitted = some batch) {placed : List PlacedWrite}
    (hplaced : placed.map PlacedWrite.toPendingWrite = batch.map Prod.snd) :
    ∀ pw ∈ placed, Fits m pw.key pw.published.checksum ∧
      ∀ pw' ∈ placed, pw'.key = pw.key → pw'.published.checksum = pw.published.checksum := by
  -- Every member is a put with its own checksum, or the delete of a known extent.
  have hmember : ∀ pw ∈ placed, (∃ p ∈ batch, p.2 = pw.toPendingWrite ∧ p.2.header.op = .put ∧
      pw.published.checksum = p.2.header.payloadChecksum) ∨
        m.store.Knows pw.key pw.published.checksum := by
    intro pw hpw
    obtain ⟨t, req, hp, hlook⟩ := waiting_of_placed hbatch hplaced hpw
    have hm := h.sound.calls.submitted t req _ hlook
    cases req with
    | write k data =>
      refine .inl ⟨_, hp, rfl, hm.2.1, ?_⟩
      unfold PlacedWrite.published
      rw [hm.2.2.1]
      rfl
    | delete k =>
      obtain ⟨v, hv⟩ := hm
      rw [hv] at hlook
      refine .inr ?_
      have hkey : pw.key = k := by
        unfold PendingWrite.key
        rw [hv]
        rfl
      have hsum : pw.published.checksum = v.checksum := by
        unfold PlacedWrite.published
        rw [hv]
        rfl
      rw [hkey, hsum]
      exact h.deleting t k v hlook
  intro pw hpw
  rcases hmember pw hpw with ⟨p, hp, heq, hop, hsum⟩ | hknown
  · obtain ⟨hfits, hsame⟩ := hguard batch hbatch p hp hop
    have hkey : p.2.key = pw.key := by rw [heq]
    rw [hsum, ← hkey]
    refine ⟨hfits, fun pw' hpw' hkey' => ?_⟩
    rcases hmember pw' hpw' with ⟨q, hq, heq', hop', hsum'⟩ | ⟨v, hv, hsum'⟩
    · rw [hsum']
      exact hsame q hq hop' (by rw [heq']; exact hkey')
    · rw [← hsum']
      exact hfits v (by rw [← hkey']; exact hv)
  · refine ⟨fun v hv => Store.Knows.unique ⟨v, hv, rfl⟩ hknown, fun pw' hpw' hkey' => ?_⟩
    rcases hmember pw' hpw' with ⟨q, hq, heq', hop', hsum'⟩ | hknown'
    · obtain ⟨v, hv, hv'⟩ := hknown
      have hkey : q.2.key = pw.key := by rw [heq']; exact hkey'
      rw [hsum', ← hv']
      exact ((hguard batch hbatch q hq hop').1 v (by rw [hkey]; exact hv)).symm
    · rw [hkey'] at hknown'
      exact hknown'.unique hknown

/-- What a step publishes fits what is known, and what else it publishes. -/
theorem Fenced.published_fits (h : Fenced m) (hguard : KeepsFence m a) (hv : Published m a k v) :
    Fits m k v.checksum ∧ ∀ v', Published m a k v' → v'.checksum = v.checksum := by
  cases a with
  | commit ts now =>
    obtain ⟨batch, placed, s, hbatch, hcommit, pw, hpw, rfl, rfl⟩ := hv
    have hplaced := placed_of_commitBatch hcommit
    obtain ⟨hfits, hsame⟩ := h.batch_fits hguard hbatch hplaced pw hpw
    refine ⟨hfits, ?_⟩
    rintro v' ⟨batch', placed', s', hbatch', hcommit', pw', hpw', hkey, rfl⟩
    obtain rfl := some.inj (hbatch.symm.trans hbatch')
    obtain ⟨heq, -⟩ := Prod.mk.inj (hcommit.symm.trans hcommit')
    cases heq
    exact hsame pw' hpw' hkey
  | append k' data codec nonce now =>
    obtain ⟨rfl, -, hsum⟩ := hv
    refine ⟨hsum ▸ hguard, ?_⟩
    rintro v' ⟨-, -, hsum'⟩
    rw [hsum, hsum']
  | relocatePut r =>
    obtain ⟨rfl, rfl⟩ := hv
    refine ⟨hguard, ?_⟩
    rintro v' ⟨-, rfl⟩
    rfl
  | _ => exact hv.elim

/-! ### Runs -/

section

variable (h : Fenced m) (hguard : KeepsFence m a) (hstep : step c m a = some m')
include h hguard hstep

/-- A location of the next state agrees with what is known. -/
theorem Fenced.agrees {sum : UInt32} (hv : Holds m' k v) (hsum : m.store.Knows k sum) :
    v.checksum = sum := by
  rcases (step_moves h.sound hstep).carries.held k v hv with hold | ⟨hnew, -⟩
  · exact (h.knows hold).unique hsum
  · obtain ⟨w, hw, rfl⟩ := hsum
    exact ((h.published_fits hguard hnew).1 w hw).symm

/-- What is known stays known, with its checksum. -/
theorem Fenced.keeps {sum : UInt32} (hsum : m.store.Knows k sum) : m'.store.Knows k sum := by
  obtain ⟨v, hv, -⟩ := id hsum
  obtain ⟨v', hv'⟩ := isSome_iff_exists.mp
    ((step_moves h.sound hstep).carries.known k (isSome_iff_exists.mpr ⟨v, hv⟩))
  exact ⟨v', hv', h.agrees hguard hstep (holds_of_lookup hv') hsum⟩

/-- **One step that keeps the fence.** -/
theorem Fenced.step : Fenced m' := by
  have hmoves := step_moves h.sound hstep
  refine ⟨hmoves.carries.sound h.sound hmoves.calls, ?_, ?_, ?_⟩
  · intro k v v' hv hv'
    rcases hmoves.carries.held k v hv with hold | ⟨hnew, -⟩
    · exact (h.agrees hguard hstep hv' (h.knows hold)).symm
    · rcases hmoves.carries.held k v' hv' with hold' | ⟨hnew', -⟩
      · exact h.agrees hguard hstep hv (h.knows hold')
      · exact (h.published_fits hguard hnew').2 v hnew
  · intro t k v ht
    rcases hmoves.submitted t _ _ ht with hold | ⟨nonce, -, w, hw, heq⟩
    · exact h.keeps hguard hstep (h.deleting t k v hold)
    · have hvalue : Store.tombstoneOf v = Store.tombstoneOf w :=
        some.inj (congrArg PendingWrite.publishedValue heq)
      have hsum : (Store.tombstoneOf w).checksum = (Store.tombstoneOf v).checksum := by
        rw [hvalue]
      exact h.keeps hguard hstep ⟨w, hw, hsum⟩
  · intro k sum hack
    rcases hmoves.acked k sum hack with hold | ⟨v, hv, rfl⟩
    · exact h.keeps hguard hstep (h.acked k sum hold)
    · exact h.keeps hguard hstep (h.knows hv)

end

theorem fenced_init {s : Store} (hoverlay : s.overlay = .empty) (hqueue : s.applyCh = []) :
    Fenced (init s) := by
  refine ⟨sound_init (by rw [hoverlay]; rfl) hqueue, ?_, by simp [init], by simp [init]⟩
  intro k v v' hv hv'
  rw [some.inj ((holds_init hoverlay hqueue hv).symm.trans (holds_init hoverlay hqueue hv'))]

/--
**Generation fencing.**  In every run whose commits and publications meet an extent
that is unknown or has the same checksum, only one payload checksum is ever
acknowledged for an extent at a generation, and a later `Write` with another one
returns `ErrStaleGeneration` at once.
-/
theorem one_checksum_acknowledged (c : FrameCodec) (s : Store) (hoverlay : s.overlay = .empty)
    (hqueue : s.applyCh = []) (acts : List Action)
    (hmeets : Guarded.Meets (step c) KeepsFence acts (init s)) (m : Machine)
    (hrun : Guarded.run (step c) acts (init s) = some m) (k : Key) (sum : UInt32)
    (hack : .acked k sum ∈ m.log) :
    (∀ sum', .acked k sum' ∈ m.log → sum' = sum) ∧ ∀ t data nonce, crc32c data ≠ sum →
        m.start c t (.write k data) nonce = m.ret t (.write k data) (.error .staleGeneration) := by
  have hinv : Fenced m := Guarded.run_invariant (fun _ _ _ h hguard hstep => h.step hguard hstep)
      (fenced_init hoverlay hqueue) hmeets hrun
  have hknown : m.store.Knows k sum := hinv.acked k sum hack
  refine ⟨fun sum' hack' => (hinv.acked k sum' hack').unique hknown, ?_⟩
  intro t data nonce hne
  obtain ⟨v, hv, rfl⟩ := hknown
  have hlook : m.store.writeLookup k data = some (.error .staleGeneration) := by
    unfold Store.writeLookup
    rw [hv]
    simp [Ne.symm hne]
  unfold Machine.start
  simp only [hlook]

open SampleMachine in
/-- Two writes of one payload in one batch: both are acknowledged, another payload is refused. -/
theorem one_checksum_acknowledged_twice :
    ∃ m, Guarded.run (step codec) (bothPut [5] [5]) (init emptyStore) = some m ∧
      .acked (7, 1) (crc32c [5]) ∈ m.log ∧ m.start codec 3 (.write (7, 1) [6]) (fun _ => []) =
        m.ret 3 (.write (7, 1) [6]) (.error .staleGeneration) := by
  have hmeets : Guarded.Meets (step codec) KeepsFence (bothPut [5] [5]) (init emptyStore) := by
    decide +kernel
  have hend : (Guarded.run (step codec) (bothPut [5] [5]) (init emptyStore)).map
      (fun m => decide (.acked (7, 1) (crc32c [5]) ∈ m.log)) = some true := by decide +kernel
  obtain ⟨m, hm, heq⟩ := map_eq_some_iff.mp hend
  have hack := of_decide_eq_true heq
  exact ⟨m, hm, hack, (one_checksum_acknowledged codec emptyStore rfl rfl (bothPut [5] [5]) hmeets
    m hm (7, 1) _ hack).2 3 [6] _ (by decide +kernel)⟩

open SampleMachine in
/-- Two writes of different payloads look before either is committed: both are acknowledged. -/
theorem two_checksums_acknowledged :
    (Guarded.run (step codec) (bothPut [5] [6]) (init emptyStore)).map (fun m =>
        (decide (.acked (7, 1) (crc32c [5]) ∈ m.log), decide (.acked (7, 1) (crc32c [6]) ∈ m.log))) =
      some (true, true) ∧ crc32c [5] ≠ crc32c [6] := by
  refine ⟨?_, ?_⟩
  · decide +kernel
  · decide +kernel

end Machine

end Nufs.Storage
