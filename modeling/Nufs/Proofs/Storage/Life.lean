/-
Startup after every crash.

A node serves, is cut off at any byte of any operation, crashes, and is opened again,
where the opening may be cut off too.  As long as its records fit the formats, the
directory always holds a log of which the end may be missing; `New` then fails for two reasons only,
besides its budget.  The newest segment may have been cut off in its header, or it may
have been filled so far that the marker of the startup flush finds no room.
-/
import Nufs.Proofs.Storage.Durable
import Nufs.Proofs.Storage.Stored

namespace Nufs.Storage

open ByteFile Option Store

/-! ### Serving -/

namespace Machine

/-- A machine around a store that logs; the marker of its flush is the last entry of the log. -/
structure Logs (cfg : Config) (m : Machine) (before after : List LogEntry) (file : File)
    (q : UInt64) : Prop where
  logging : m.store.Logging cfg before after file q
  flushing : ∀ fl ph, m.flushing = some (fl, ph) → fl.safe = m.store.streamSeq
  marked : ∀ fl cp, m.flushing = some (fl, .marked cp) →
    cp = ⟨m.store.alloc.segmentID, file.bytes.length, m.store.streamSeq⟩ ∧
      ∃ es, before ++ after = es ++ [.safeAt m.store.streamSeq]

/-- The store of a machine logs, or it is stuck and no checkpoint is due. -/
def LogsOrStuck (cfg : Config) (m : Machine) : Prop :=
  (∃ before after file q, Logs cfg m before after file q) ∨
    (∃ file, m.store.Stuck cfg file) ∧ ∀ fl cp, m.flushing ≠ some (fl, .marked cp)

/-- A machine around a running store. -/
structure Running (cfg : Config) (m : Machine) : Prop where
  sound : Sound m
  frames : ∀ t req pw, m.calls.lookup t = some (req, .submitted pw) → ∃ r, pw.Frames r
  log : LogsOrStuck cfg m

/-- What a request may hold, and how far the sequences may go. -/
def FitsLife (c : FrameCodec) (m : Machine) : Action → Prop
  | .append k data codec nonce _ => frameCount defaultFrameSize data < 2 ^ 16 ∧
      (∀ pw, buildAppend c nonce k data codec = .ok pw → pw.bytes.length < 2 ^ 32) ∧
      m.store.streamSeq.toNat + 1 < seqBound
  | a => m.FitsFormat c a

instance (c : FrameCodec) (m : Machine) (a : Action) : Decidable (m.FitsLife c a) :=
  match a with
  | .append k data codec nonce _ =>
    have : Decidable (∀ pw, buildAppend c nonce k data codec = .ok pw →
        pw.bytes.length < 2 ^ 32) :=
      decidable_of_iff _ forall_ok_iff
    inferInstanceAs (Decidable (_ ∧ _ ∧ _))
  | .start t req nonce => inferInstanceAs (Decidable (m.FitsFormat c (.start t req nonce)))
  | .commit ts now => inferInstanceAs (Decidable (m.FitsFormat c (.commit ts now)))
  | .finish _ | .take | .applyTaken | .flushDrain | .flushApply | .flushMark | .flushStore
  | .flushAbort | .relocateCheck _ | .relocatePut _ => isTrue trivial

theorem FitsLife.format {c : FrameCodec} {m : Machine} {a : Action} (h : m.FitsLife c a) :
    m.FitsFormat c a := by
  cases a with
  | append k data codec nonce now => trivial
  | _ => exact h

section Steps

variable {c : FrameCodec} {cfg : Config} {m m' : Machine} {a : Action}

variable {s : Store} {ts : List Thread} {now : UInt64}

theorem LogsOrStuck.stored (h : LogsOrStuck cfg m) : m.store.Stored cfg := by
  rcases h with ⟨before, after, file, q, h⟩ | ⟨hstuck, -⟩
  · exact .inl ⟨before, after, file, q, h.logging⟩
  · exact .inr hstuck

/-- A machine without a flush in progress. -/
theorem logsOrStuck_idle (hs : m.store.Stored cfg) (hidle : m.flushing = none) :
    LogsOrStuck cfg m := by
  have hnone : ∀ fl ph, m.flushing ≠ some (fl, ph) := by
    intro fl ph hfl
    rw [hidle] at hfl
    cases hfl
  rcases hs with ⟨before, after, file, q, hs⟩ | hstuck
  · exact .inl ⟨before, after, file, q, hs, fun fl ph hfl => absurd hfl (hnone fl ph),
      fun fl cp hfl => absurd hfl (hnone fl (.marked cp))⟩
  · exact .inr ⟨hstuck, fun fl cp => hnone fl (.marked cp)⟩

theorem running_init (hs : s.Stored cfg) (hoverlay : s.overlay = .empty)
    (hqueue : s.applyCh = []) : Running cfg (init s) where
  sound := sound_init (by rw [hoverlay]; rfl) hqueue
  frames := by
    intro t req pw hcall
    simp [init] at hcall
  log := logsOrStuck_idle hs rfl

section

variable (h : Running cfg m) (hfits : m.FitsLife c a) (hstep : step c m a = some m')
include h hfits hstep

/-- What is left to show of a step. -/
theorem Running.of_step (hlog : LogsOrStuck cfg m') : Running cfg m' := by
  have hmoves := step_moves h.sound hstep
  refine ⟨hmoves.carries.sound h.sound hmoves.calls, ?_, hlog⟩
  intro t req pw hcall
  rcases hmoves.submitted t req pw hcall with hold | hstarted
  · exact h.frames t req pw hold
  · exact frames_of_started hfits.format hstarted

/-- A step that changes nothing of the segments. -/
theorem Running.of_same_files (hquiet : Quiet m m') : Running cfg m' := by
  refine h.of_step hfits hstep ?_
  rcases h.log with ⟨before, after, file, q, hl⟩ | ⟨⟨file, hstuck⟩, hunmarked⟩
  · have halloc : m'.store.alloc = m.store.alloc := by rw [hquiet.store]
    have hseq : m'.store.streamSeq = m.store.streamSeq := by rw [hquiet.store]
    refine .inl ⟨before, after, file, q, hl.logging.congr hquiet.store, ?_, ?_⟩
    · intro fl ph hfl
      rw [hseq]
      rcases hquiet.flushing fl ph hfl with ⟨hsafe, -⟩ | ⟨⟨ph', hfl'⟩, -⟩
      · exact hsafe.trans hl.logging.published.flushSeq
      · exact hl.flushing fl ph' hfl'
    · intro fl cp hfl
      rw [halloc, hseq]
      exact hl.marked fl cp (hquiet.marked fl cp hfl)
  · refine .inr ⟨⟨file, hstuck.congr (by rw [hquiet.store])⟩, ?_⟩
    intro fl cp hfl
    exact hunmarked fl cp (hquiet.marked fl cp hfl)

end

variable {batch : List (Request × PendingWrite)} {k : Key} {data : List UInt8}
  {codec : CompressionCodec} {nonce : Nat → List UInt8}

/-- A commit of waiting calls, perhaps cut off. -/
theorem Running.survives (h : Running cfg m) (fault : Fault) (now : UInt64) (hne : ts ≠ [])
    (hbatch : ts.mapM m.submitted = some batch)
    (hbound : m.store.streamSeq.toNat + ts.length < seqBound) :
    Store.Survives cfg fault (commitBatch fault now (batch.map Prod.snd) m.store).2 := by
  obtain ⟨hsome, hframes, hlen⟩ := batch_fits hne h.frames hbound hbatch
  exact h.log.stored.commitBatch fault now hsome hframes hlen

theorem survives_none (h : Store.Survives cfg none s) : s.Stored cfg := by
  rcases h with hs | ⟨hfault, -⟩
  · exact hs
  · exact absurd rfl hfault

theorem Running.commit (h : Running cfg m) (hfits : m.FitsLife c (.commit ts now))
    (hstep : step c m (.commit ts now) = some m') : Running cfg m' := by
  obtain ⟨hidle, hne, batch, hbatch, hresult⟩ := commit_cases hstep h.sound.calls
  have hstored := survives_none (h.survives none now hne hbatch hfits)
  have hleft : m'.store = (commitBatch none now (batch.map Prod.snd) m.store).2 ∧
      m'.flushing = none := by
    rcases hresult with ⟨e, s, hcommit, -, rfl⟩ | ⟨placed, s, hcommit, -, -, -, -, rfl⟩
    · rw [hcommit, retAll_eq]
      exact ⟨rfl, hidle⟩
    · rw [hcommit, commitAll_eq]
      exact ⟨rfl, hidle⟩
  rw [← hleft.1] at hstored
  exact h.of_step hfits hstep (logsOrStuck_idle hstored hleft.2)

theorem Running.flushMark (h : Running cfg m) (hstep : step c m .flushMark = some m') :
    Running cfg m' := by
  have hfits : m.FitsLife c .flushMark := trivial
  rcases h.log with ⟨before, after, file, q, hl⟩ | ⟨⟨file, hstuck⟩, -⟩
  · rcases flushMark_logging hl.logging hl.flushing hstep with
      rfl | ⟨fl, t, file', happ, hlogging, hfl, hmarked⟩
    · exact h.of_same_files hfits hstep ⟨rfl, fun _ => id, by simp, by simp⟩
    refine h.of_step hfits hstep (.inl ⟨before, _, file', q, hlogging, ?_, ?_⟩)
    · intro fl' ph hfl'
      rw [hmarked] at hfl'
      cases hfl'
      rw [happ.streamSeq]
      exact hl.flushing fl _ hfl
    · intro fl' cp hfl'
      rw [hmarked] at hfl'
      cases hfl'
      refine ⟨rfl, before ++ after, ?_⟩
      rw [happ.streamSeq, List.append_assoc]
  · obtain ⟨fl, -, hresult⟩ := flushMark_cases hstep
    rw [hstuck.mark] at hresult
    rcases hresult with ⟨e, -, rfl⟩ | ⟨cp, hok, -⟩
    · exact h.of_same_files hfits hstep ⟨rfl, fun _ => id, by simp, by simp⟩
    · cases hok

theorem Running.flushStore (h : Running cfg m) (hstep : step c m .flushStore = some m') :
    Running cfg m' := by
  have hfits : m.FitsLife c .flushStore := trivial
  obtain ⟨fl, cp, hfl, rfl | ⟨hne, rfl⟩⟩ := flushStore_cases hstep
  · exact h.of_same_files hfits hstep ⟨rfl, fun _ => id, by simp, by simp⟩
  rcases h.log with ⟨before, after, file, q, hl⟩ | ⟨-, hunmarked⟩
  · obtain ⟨rfl, es, hes⟩ := hl.marked fl cp hfl
    have hlogging := hl.logging.checkpoint hes hne
    exact h.of_step hfits hstep
      (logsOrStuck_idle (.inl ⟨_, _, _, _, hlogging.congr rfl⟩) rfl)
  · exact absurd hfl (hunmarked fl cp)

/-- The record of an append is well framed. -/
theorem frames_of_append {pw : PendingWrite} (hfits : m.FitsLife c (.append k data codec nonce now))
    (hbuild : buildAppend c nonce k data codec = .ok pw) : ∃ r, pw.Frames r := by
  obtain ⟨key, -, hput⟩ := buildAppend_ok hbuild
  exact buildPut_frames hput hfits.1 (hfits.2.1 pw hbuild)

theorem Running.append (h : Running cfg m) (hfits : m.FitsLife c (.append k data codec nonce now))
    (hstep : step c m (.append k data codec nonce now) = some m') : Running cfg m' := by
  have hstep' := hstep
  simp only [Machine.step, Machine.append] at hstep'
  split at hstep'
  · cases hstep'
  rename_i hidle
  split at hstep'
  · cases hstep'
    exact h
  · rename_i pw hbuild
    cases hstep'
    have hstored := survives_none
      (h.log.stored.appendRecord none now (frames_of_append hfits hbuild) hfits.2.2)
    exact h.of_step hfits hstep (logsOrStuck_idle hstored hidle)

/-- **Every step** of a machine keeps its store running. -/
theorem Running.act (h : Running cfg m) (hfits : m.FitsLife c a)
    (hstep : step c m a = some m') : Running cfg m' := by
  cases a with
  | commit ts now => exact h.commit hfits hstep
  | flushMark => exact h.flushMark hstep
  | flushStore => exact h.flushStore hstep
  | append k data codec nonce now => exact h.append hfits hstep
  | relocatePut r =>
    obtain rfl := relocatePut_eq hstep
    refine h.of_step hfits hstep ?_
    rcases h.log with ⟨before, after, file, q, hl⟩ | ⟨⟨file, hstuck⟩, hunmarked⟩
    · exact .inl ⟨before, after, file, q, hl.logging.congr rfl, hl.flushing, hl.marked⟩
    · exact .inr ⟨⟨file, hstuck.congr rfl⟩, hunmarked⟩
  | _ => exact h.of_same_files hfits hstep (.of_step hstep rfl)

/-- What an interrupted operation may hold. -/
def FitsCut (c : FrameCodec) (m : Machine) : Interruption → Prop
  | .serving (.commit ts now _) => m.FitsLife c (.commit ts now)
  | .append k data codec nonce now _ => m.FitsLife c (.append k data codec nonce now)
  | _ => True

instance (c : FrameCodec) (m : Machine) (w : Interruption) : Decidable (m.FitsCut c w) :=
  match w with
  | .serving (.commit ts now _) => inferInstanceAs (Decidable (m.FitsLife c (.commit ts now)))
  | .append k data codec nonce now _ =>
    inferInstanceAs (Decidable (m.FitsLife c (.append k data codec nonce now)))
  | .serving .between | .serving (.mark _) => isTrue trivial

/-- **Every interruption** leaves a log of which the end may be missing. -/
theorem Running.interrupted {w : Interruption} (h : Running cfg m) (hfits : m.FitsCut c w)
    (hcut : m.interrupted c w = some s) : Store.OnDisk cfg s.files s.checkpoint := by
  cases w with
  | append k data codec nonce now fault =>
    simp only [Machine.interrupted] at hcut
    split at hcut
    · rename_i pw hidle hbuild
      cases hcut
      have happend : m.FitsLife c (.append k data codec nonce now) := hfits
      exact (h.log.stored.appendRecord (some fault) now (frames_of_append happend hbuild)
        happend.2.2).onDisk
    · cases hcut
  | serving w =>
    obtain ⟨⟨s', events⟩, hcut', rfl⟩ := map_eq_some_iff.mp hcut
    cases w with
    | between =>
      cases hcut'
      exact h.log.stored.onDisk
    | commit ts now fault =>
      simp only [Machine.cutOff] at hcut'
      split_ifs at hcut' with hidle
      simp only [not_or] at hidle
      obtain ⟨batch, hbatch, heq⟩ := map_eq_some_iff.mp hcut'
      cases heq
      exact (h.survives (some fault) now hidle.2.1 hbatch hfits).onDisk
    | mark fault =>
      simp only [Machine.cutOff] at hcut'
      split at hcut'
      · rename_i fl hfl
        cases hcut'
        rcases h.log with ⟨before, after, file, q, hl⟩ | ⟨⟨file, hstuck⟩, -⟩
        · have hsafe : fl.safe.toNat < seqBound := by
            rw [hl.flushing fl _ hfl]
            exact hl.logging.seq_lt
          have hbytes := hl.logging.writing.bytes_eq
          rw [hl.logging.streamID] at hbytes
          exact hl.logging.torn.mark_onDisk hbytes hl.logging.writing.offset (some fault) hsafe
        · rw [hstuck.mark]
          exact hstuck.disk
      · cases hcut'

end Steps

end Machine

/-! ### Lives -/

namespace Life

/-- Records and sequences fit the formats, and a crash leaves a startable disk. -/
def KeepsStartable (c : FrameCodec) (cfg : Config) : Life → LifeAction → Prop
  | .serving m, .act a => m.FitsLife c a
  | .serving m, .cutOff w => m.FitsCut c w
  | .halted s, .crash keep => Startable cfg ⟨s.files.crash keep, s.index, s.checkpoint⟩
  | _, _ => True

instance (c : FrameCodec) (cfg : Config) (l : Life) (a : LifeAction) :
    Decidable (KeepsStartable c cfg l a) :=
  match l, a with
  | .serving m, .act a => inferInstanceAs (Decidable (m.FitsLife c a))
  | .serving m, .cutOff w => inferInstanceAs (Decidable (m.FitsCut c w))
  | .halted s, .crash keep =>
    inferInstanceAs (Decidable (Startable cfg ⟨s.files.crash keep, s.index, s.checkpoint⟩))
  | .serving _, .crash _ | .serving _, .reopen _ _ | .serving _, .reopenCut _ _ _
  | .halted _, .act _ | .halted _, .cutOff _ | .halted _, .reopen _ _ | .halted _, .reopenCut _ _ _
  | .down _, .act _ | .down _, .cutOff _ | .down _, .crash _ | .down _, .reopen _ _
  | .down _, .reopenCut _ _ _ => isTrue trivial

/-- What holds of a life. -/
def Keeps (cfg : Config) : Life → Prop
  | .serving m => m.Running cfg
  | .halted s => Store.OnDisk cfg s.files s.checkpoint
  | .down disk => Store.OnDisk cfg disk.files disk.checkpoint ∧ Startable cfg disk

variable {cfg : Config}

/-- A startable disk that is not empty has its newest segment's header, and room for a marker. -/
theorem startable_newest {disk : Disk} {h : SegmentID} {file : File} (hstart : Startable cfg disk)
    (hhigh : Highest disk.files h) (hfile : disk.files.lookup h = some file)
    (clock : RecoveryClock) : segmentHeaderSize ≤ file.bytes.length ∧
      (file.bytes.length + batchCommitSize ≤ cfg.size ∨
        (file.bytes.length : Int) ≤ (recoverOptions cfg clock disk.checkpoint h).safeOffset) := by
  have hmax : maxSegmentID disk.files = h := hhigh.maxSegmentID_eq
  have hnewest := hstart file (by rw [hmax]; exact hfile)
  rw [hmax] at hnewest
  exact hnewest

/-- **`New` on what survives** returns a running store, or exceeds its budget. -/
theorem new_of_keeps {disk : Disk} (h : Keeps cfg (.down disk)) (clock : RecoveryClock)
    (now : UInt64) :
    (∃ s, Store.new cfg clock now disk = .ok s ∧ s.Stored cfg ∧ s.overlay = .empty ∧
        s.applyCh = []) ∨
      Store.new cfg clock now disk = .error .recoveryBudgetExceeded ∧ Exceeds cfg clock disk := by
  obtain ⟨⟨hfiles, hcp⟩ | ⟨h, _, file, _, _, _, _, _, ht⟩, hstart⟩ := h
  · obtain ⟨files, index, checkpoint⟩ := disk
    obtain rfl : files = ∅ := hfiles
    obtain rfl : checkpoint = none := hcp
    rcases new_none cfg clock now index with ⟨s, hnew, hopened⟩ | ⟨hspent, hlate⟩
    · obtain ⟨file, hlogging⟩ := hopened.logging (by decide)
      exact .inl ⟨s, hnew, .inl ⟨_, _, _, _, hlogging⟩, hopened.overlay, hopened.applyCh⟩
    · exact .inr ⟨hspent, .inl hlate⟩
  · obtain ⟨hlen, hroom⟩ := startable_newest hstart ht.highest ht.lookup clock
    rcases ht.new clock now hlen hroom with ⟨s, index, seq, hnew, hopened, hseq⟩ | hspent
    · obtain ⟨file', hlogging⟩ := hopened.logging hseq
      exact .inl ⟨s, hnew, .inl ⟨_, _, _, _, hlogging⟩, hopened.overlay, hopened.applyCh⟩
    · exact .inr hspent

theorem keeps_fresh (cfg : Config) : Keeps cfg fresh := by
  refine ⟨.inl ⟨rfl, rfl⟩, ?_⟩
  intro file hfile
  exact absurd hfile (by simp [AList.lookup_empty])

/-- **One step** of a life. -/
theorem keeps_step {c : FrameCodec} {l l' : Life} {a : LifeAction} (h : Keeps cfg l)
    (hguard : KeepsStartable c cfg l a) (hstep : step c cfg l a = some l') : Keeps cfg l' := by
  cases l with
  | serving m =>
    have hm : m.Running cfg := h
    cases a with
    | act a =>
      obtain ⟨m', hm', rfl⟩ := map_eq_some_iff.mp hstep
      exact hm.act hguard hm'
    | cutOff w =>
      obtain ⟨s, hcut, rfl⟩ := map_eq_some_iff.mp hstep
      exact hm.interrupted hguard hcut
    | _ => exact absurd hstep (by simp [step])
  | halted s =>
    cases a with
    | crash keep =>
      cases hstep
      exact ⟨Store.OnDisk.crash h keep, hguard⟩
    | _ => exact absurd hstep (by simp [step])
  | down disk =>
    cases a with
    | reopen clock now =>
      simp only [step] at hstep
      rcases new_of_keeps h clock now with ⟨s, hnew, hstored, hoverlay, hqueue⟩ | ⟨hspent, -⟩
      · rw [hnew] at hstep
        cases hstep
        exact Machine.running_init hstored hoverlay hqueue
      · rw [hspent] at hstep
        cases hstep
    | reopenCut clock now cut =>
      obtain ⟨s, hcut, rfl⟩ := map_eq_some_iff.mp hstep
      obtain ⟨⟨hfiles, hcp⟩ | ⟨h, _, file, _, _, _, _, _, ht⟩, hstart⟩ := h
      · exact newUntil_empty hfiles hcp hcut
      · obtain ⟨hlen, hroom⟩ := startable_newest hstart ht.highest ht.lookup clock
        exact ht.newUntil hlen hroom hcut
    | _ => exact absurd hstep (by simp [step])

end Life

/-! ### A small life -/

namespace SampleLife

open SampleNode

/-- A store is opened, and thread 1 commits the write of an extent. -/
def served : List LifeAction :=
  [.reopen clock 0, .act (.start 1 (.write (7, 1) [5]) fun _ => []), .act (.commit [1] 0)]

/-- The commit of a second write is cut off inside its record. -/
def interrupted : List LifeAction :=
  served ++ [.act (.start 2 (.write (8, 1) [5]) fun _ => []),
    .cutOff (.serving (.commit [2] 0 (0, 30))), .crash fun _ => 1000]

/-- What `New` answers after a life. -/
def answer (cfg : Config) (acts : List LifeAction) : Option (Except Err Unit) :=
  (Guarded.run (Life.step SampleMachine.codec cfg) acts Life.fresh).bind fun l => match l with
    | .down disk => some ((Store.new cfg clock 0 disk).map fun _ => ())
    | _ => none

end SampleLife

namespace Life

end Life

end Nufs.Storage
