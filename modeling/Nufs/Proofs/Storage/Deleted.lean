/-
Deleted extents and how they can come back.

A delete publishes a tombstone.  Once a flush has moved the tombstone to the index,
nothing protects it there: the queue may still hold the location of the deleted
write and put it back, and a relocation or an appended record may publish the extent
again.  As long as none of these steps is taken, a deleted extent stays deleted.
-/
import Nufs.Proofs.Storage.Machine

namespace Nufs.Storage

open ByteFile Option Overlay

/-- Did a delete of the extent take effect, with no record of a write committed since? -/
def deletedIn : List Event → Key → Bool
  | [], _ => false
  | .committed k' op :: log, k => if k' = k then op == .delete else deletedIn log k
  | .notFound k' :: log, k => if k' = k then true else deletedIn log k
  | .deleted _ :: log, k => deletedIn log k
  | .acked _ _ :: log, k => deletedIn log k
  | .refused _ _ _ :: log, k => deletedIn log k
  | .interrupted _ _ :: log, k => deletedIn log k

namespace Machine

/-- A tombstone for the extent will still reach the index: it is in the overlay, or with a flush
that has not applied it yet. -/
def Shielded (m : Machine) (k : Key) : Prop :=
  (m.store.overlay.entries.lookup k).isSome ∨
    (m.store.overlay.draining.lookup k).isSome ∧ ∃ fl, m.flushing = some (fl, .drained)

/-- The extent is known as durable. -/
def LooksDurable (m : Machine) (k : Key) : Prop :=
  ∃ v, m.store.lookup k = some v ∧ v.state = .durable

/-- Applying the mutation cannot undo a delete. -/
def ApplySafe (m : Machine) (x : Mutation) : Prop :=
  x.value.state = .durable → Shielded m x.key ∨ LooksDurable m x.key

/--
The step cannot bring a deleted extent back: a durable location is applied to the
index only if the extent is not deleted or a tombstone still follows, and the
compactor publishes only extents that are known as durable at that moment.
-/
def KeepsDeleted (m : Machine) : Action → Prop
  | .applyTaken => ∀ muts, m.taken = some muts → ∀ x ∈ muts, ApplySafe m x
  | .finish t => Store.applyCap ≤ m.store.applyCh.length →
      ∀ req pw, m.calls.lookup t = some (req, .committed pw) → pw.publishedValue = none →
        ApplySafe m ⟨pw.key, pw.location .durable⟩
  | .append k _ _ _ _ => LooksDurable m k
  | .relocatePut r => LooksDurable m r.key
  | _ => True

/-- Nothing durable is known of the extent, and what the index still says is covered. -/
structure Dead (m : Machine) (k : Key) : Prop where
  entries : ∀ v, m.store.overlay.entries.lookup k = some v → v.state ≠ .durable
  draining : ∀ v, m.store.overlay.draining.lookup k = some v → v.state ≠ .durable
  index : ∀ v, m.store.index.lookup k = some v → v.state = .durable → Shielded m k

variable {m m' : Machine} {k : Key} {fl : Flush} {s : Store}

theorem Dead.not_looksDurable (h : Dead m k) : ¬ LooksDurable m k := by
  rintro ⟨v, hlook, hdurable⟩
  rw [Store.lookup_eq] at hlook
  cases hentries : m.store.overlay.entries.lookup k with
  | some v' =>
    obtain rfl : v' = v := by simpa [hentries] using hlook
    exact h.entries v' hentries hdurable
  | none =>
    cases hdraining : m.store.overlay.draining.lookup k with
    | some v' =>
      obtain rfl : v' = v := by simpa [hentries, hdraining] using hlook
      exact h.draining v' hdraining hdurable
    | none =>
      -- The index may not say durable, since neither part of the overlay covers it.
      have hindex : m.store.index.lookup k = some v := by
        simpa [hentries, hdraining] using hlook
      rcases h.index v hindex hdurable with hsome | ⟨hsome, -⟩
      · simp [hentries] at hsome
      · simp [hdraining] at hsome

/-- Every extent deleted according to the log is dead. -/
structure DeletedDead (m : Machine) : Prop where
  flush : FlushOK m
  calls : CallsOK m
  dead : ∀ k, deletedIn m.log k = true → Dead m k

section

variable (h : DeletedDead m)
include h

/-- Mutations are applied to the index. -/
theorem DeletedDead.apply {muts : List Mutation} (hsafe : ∀ x ∈ muts, ApplySafe m x)
    (hoverlay : m'.store.overlay = m.store.overlay)
    (hindex : m'.store.index = m.store.index.applyNow muts) (hflushing : m'.flushing = m.flushing)
    (hcalls : CallsOK m') (hlog : ∀ k, deletedIn m'.log k = true → deletedIn m.log k = true) :
    DeletedDead m' := by
  refine ⟨h.flush.of_frame (by rw [hoverlay]) hflushing ?_, hcalls, fun k hk => ?_⟩
  · intro k hk
    rw [hindex]
    exact lookup_isSome_applyNow hk
  have hdead := h.dead k (hlog k hk)
  have hshield : Shielded m k → Shielded m' k := by
    unfold Shielded
    rw [hoverlay, hflushing]
    exact id
  refine ⟨by rw [hoverlay]; exact hdead.entries, by rw [hoverlay]; exact hdead.draining, ?_⟩
  intro v hv hdurable
  rw [hindex] at hv
  rcases lookup_applyNow m.store.index muts k with ⟨-, heq⟩ | ⟨x, hx, rfl, heq⟩
  · exact hshield (hdead.index v (heq ▸ hv) hdurable)
  · obtain rfl : x.value = v := by simpa [heq] using hv
    rcases hsafe x hx hdurable with hs | hlook
    · exact hshield hs
    · exact absurd hlook hdead.not_looksDurable

/-- Steps that change nothing a lookup sees. -/
theorem DeletedDead.of_same_view (hoverlay : m'.store.overlay = m.store.overlay)
    (hindex : m'.store.index = m.store.index) (hflushing : m'.flushing = m.flushing)
    (hcalls : CallsOK m') (hlog : ∀ k, deletedIn m'.log k = true → deletedIn m.log k = true) :
    DeletedDead m' := by
  have hnone : ∀ x ∈ ([] : List Mutation), ApplySafe m x := by simp
  exact h.apply hnone hoverlay hindex hflushing hcalls hlog

/-- A location is published for an extent that is known as durable. -/
theorem DeletedDead.publish (hk : LooksDurable m k) {v : Value}
    (hoverlay : m'.store.overlay = m.store.overlay.put k v)
    (hindex : m'.store.index = m.store.index) (hflushing : m'.flushing = m.flushing)
    (hcalls : m'.calls = m.calls) (hlog : m'.log = m.log) : DeletedDead m' := by
  refine ⟨h.flush.of_frame (by rw [hoverlay]; rfl) hflushing (by simp [hindex]),
    h.calls.congr hcalls, fun k' hk' => ?_⟩
  rw [hlog] at hk'
  have hdead := h.dead k' hk'
  have hne : k' ≠ k := by
    rintro rfl
    exact hdead.not_looksDurable hk
  refine ⟨?_, ?_, ?_⟩
  · rw [hoverlay, entries_put, AList.lookup_insert_ne hne]
    exact hdead.entries
  · rw [hoverlay]
    exact hdead.draining
  · intro v' hv' hdurable
    rw [hindex] at hv'
    unfold Shielded
    rw [hoverlay, hflushing, entries_put, AList.lookup_insert_ne hne]
    exact hdead.index v' hv' hdurable

/-! ### Flushes -/

theorem DeletedDead.drain (hnone : m.flushing = none) : DeletedDead { m with
      store := m.store.flushDrain.2
      flushing := m.store.flushDrain.1.map fun fl => (fl, .drained) } := by
  refine ⟨h.flush.drain hnone, h.calls.congr rfl, fun k hk => ?_⟩
  have hdead := h.dead k hk
  have hdraining : m.store.overlay.draining = ∅ := h.flush.idle hnone
  refine ⟨by simp [Store.flushDrain], ?_, ?_⟩
  · simpa [Store.flushDrain, hdraining] using hdead.entries
  intro v hv hdurable
  rcases hdead.index v hv hdurable with hsome | ⟨-, fl, hfl⟩
  · -- The tombstone moves with the flush, which now holds something.
    refine .inr ⟨by simpa [Store.flushDrain, hdraining] using hsome, ?_⟩
    obtain ⟨v', hv'⟩ := isSome_iff_exists.mp hsome
    have hmem : (⟨k, v'⟩ : Mutation) ∈ m.store.overlay.drained := mem_drained.mpr hv'
    have hne : m.store.overlay.drained ≠ [] := List.ne_nil_of_mem hmem
    exact ⟨⟨m.store.flushSeq, m.store.flushMutations, m.store.overlay.drained⟩,
      by simp [Store.flushDrain, hne]⟩
  · simp [hnone] at hfl

theorem DeletedDead.flushApply (hfl : m.flushing = some (fl, .drained)) :
    DeletedDead { m with
      store := m.store.applyNow fl.muts
      flushing := some (fl, .applied) } := by
  refine ⟨h.flush.flushApply hfl, h.calls.congr rfl, fun k hk => ?_⟩
  have hdead := h.dead k hk
  refine ⟨hdead.entries, hdead.draining, ?_⟩
  intro v hv hdurable
  have hv' : (m.store.index.applyNow fl.muts).lookup k = some v := hv
  rcases lookup_applyNow m.store.index fl.muts k with ⟨hnone, heq⟩ | ⟨x, hx, rfl, heq⟩
  · rcases hdead.index v (heq ▸ hv') hdurable with hsome | ⟨hsome, -⟩
    · exact .inl hsome
    · obtain ⟨v', hv'⟩ := isSome_iff_exists.mp hsome
      exact absurd rfl (hnone _ ((h.flush.muts fl _ hfl k v').mp hv'))
  · obtain rfl : x.value = v := by simpa [heq] using hv'
    exact absurd hdurable (hdead.draining _ ((h.flush.muts fl _ hfl x.key x.value).mpr hx))

theorem DeletedDead.marked (hfl : m.flushing = some (fl, .applied)) (hs : Store.Unseen m.store s)
    (cp : RecoveryCheckpoint) :
    DeletedDead { m with store := s, flushing := some (fl, .marked cp) } := by
  refine ⟨h.flush.marked hfl hs cp, h.calls.congr rfl, fun k hk => ?_⟩
  have hdead := h.dead k hk
  refine ⟨by rw [hs.overlay]; exact hdead.entries, by rw [hs.overlay]; exact hdead.draining, ?_⟩
  intro v hv hdurable
  have hv' : m.store.index.lookup k = some v := by rwa [← hs.toKept.index]
  rcases hdead.index v hv' hdurable with hsome | ⟨-, fl', hfl'⟩
  · exact .inl (by rwa [hs.overlay])
  · simp [hfl] at hfl'

/-- A flush fails: what was drained is back in front of the index. -/
theorem DeletedDead.abort (hoverlay : s.overlay = m.store.overlay)
    (hindex : s.index = m.store.index) :
    DeletedDead { m with store := s.flushAbort, flushing := none } := by
  refine ⟨.ended rfl, h.calls.congr rfl, fun k hk => ?_⟩
  have hdead := h.dead k hk
  have hentries : s.flushAbort.overlay.entries.lookup k =
      (m.store.overlay.entries.lookup k).or (m.store.overlay.draining.lookup k) := by
    rw [Store.flushAbort, entries_restoreDrained, lookup_union, hoverlay]
  refine ⟨?_, by simp [Store.flushAbort], ?_⟩
  · intro v hv
    rw [hentries, or_eq_some_iff] at hv
    rcases hv with hv | ⟨-, hv⟩
    · exact hdead.entries v hv
    · exact hdead.draining v hv
  · intro v hv hdurable
    have hv' : m.store.index.lookup k = some v := by rwa [← hindex]
    refine .inl ?_
    rw [hentries, isSome_or]
    rcases hdead.index v hv' hdurable with hsome | ⟨hsome, -⟩ <;> simp [hsome]

/-- A flush ends: the index has what was drained. -/
theorem DeletedDead.discard {ph : FlushPhase} (hfl : m.flushing = some (fl, ph))
    (hph : ph ≠ .drained) (hoverlay : s.overlay = m.store.overlay.discardDrained)
    (hindex : s.index = m.store.index) : DeletedDead { m with store := s, flushing := none } := by
  refine ⟨.ended (by rw [hoverlay]; rfl), h.calls.congr rfl, fun k hk => ?_⟩
  have hdead := h.dead k hk
  refine ⟨by rw [hoverlay]; exact hdead.entries, by simp [hoverlay], ?_⟩
  intro v hv hdurable
  have hv' : m.store.index.lookup k = some v := by rwa [← hindex]
  refine .inl ?_
  rw [hoverlay]
  rcases hdead.index v hv' hdurable with hsome | ⟨-, fl', hfl'⟩
  · exact hsome
  · rw [hfl] at hfl'
    simp only [Option.some.injEq, Prod.mk.injEq] at hfl'
    exact absurd hfl'.2 hph

end

/-! ### Commits -/

/-- The published value of a matching write: durable for a write, a tombstone for a delete. -/
theorem published_of_delete {req : Request} {pw : PlacedWrite}
    (h : Matches req pw.toPendingWrite) (hop : pw.header.op = .delete) :
    pw.published.state = .tombstoned := by
  cases req with
  | write k data =>
    rw [h.2.1] at hop
    simp at hop
  | delete k =>
    obtain ⟨v, hv⟩ := h
    unfold PlacedWrite.published
    rw [hv]
    rfl

/-- A batch is published, with the commit lock held. -/
theorem DeletedDead.commit (h : DeletedDead m) (hnone : m.flushing = none)
    {owners : List (Thread × Request)} {placed : List PlacedWrite}
    (hmatch : List.Forall₂ (fun o (pw : PlacedWrite) => Matches o.2 pw.toPendingWrite) owners
      placed) (hkept : Store.Kept m.store s)
    (hoverlay : s.overlay = Store.putPlaced m.store.overlay placed) :
    DeletedDead (commitAll owners placed { m with store := s }) := by
  have hdraining : m.store.overlay.draining = ∅ := h.flush.idle hnone
  have hcalls : CallsOK (commitAll owners placed { m with store := s }) :=
    CallsOK.commitAll hmatch (h.calls.congr rfl)
  have hlog : (commitAll owners placed { m with store := s }).log = logCommitted m.log placed :=
    commitAll_log hmatch.length_eq _
  -- What one published write after the other does to entries and log.
  have hdead : ∀ (o : Overlay) (log : List Event),
      (∀ k, deletedIn log k = true → (∀ v, o.entries.lookup k = some v → v.state ≠ .durable) ∧
        ∀ v, m.store.index.lookup k = some v → v.state = .durable → (o.entries.lookup k).isSome) →
      ∀ k, deletedIn (logCommitted log placed) k = true →
        (∀ v, (Store.putPlaced o placed).entries.lookup k = some v → v.state ≠ .durable) ∧
        ∀ v, m.store.index.lookup k = some v → v.state = .durable →
          ((Store.putPlaced o placed).entries.lookup k).isSome := by
    clear hoverlay hlog hcalls
    induction hmatch with
    | nil => exact fun o log hbase => hbase
    | @cons req pw _ placed hpw _ ih =>
      intro o log hbase
      refine ih (o.put pw.key pw.published) (.committed pw.key pw.header.op :: log) ?_
      intro k hk
      unfold deletedIn at hk
      split_ifs at hk with heq
      · subst heq
        have hop : pw.header.op = .delete := by simpa using hk
        have hstate := published_of_delete hpw hop
        rw [entries_put, AList.lookup_insert]
        refine ⟨?_, by simp⟩
        intro v hv
        cases hv
        rw [hstate]
        simp
      · rw [entries_put, AList.lookup_insert_ne (Ne.symm heq)]
        exact hbase k hk
  rw [commitAll_eq] at hcalls hlog ⊢
  refine ⟨h.flush.of_frame ?_ rfl (by simp [hkept.index]), hcalls, fun k hk => ?_⟩
  · simp [hoverlay]
  rw [hlog] at hk
  obtain ⟨hentries, hindex⟩ := hdead m.store.overlay m.log (fun k hk => ⟨(h.dead k hk).entries, by
    intro v hv hdurable
    rcases (h.dead k hk).index v hv hdurable with hsome | ⟨-, fl, hfl⟩
    · exact hsome
    · simp [hnone] at hfl⟩) k hk
  refine ⟨by rw [hoverlay]; exact hentries, by simp [hoverlay, hdraining], ?_⟩
  intro v hv hdurable
  rw [hkept.index] at hv
  exact .inl (by rw [hoverlay]; exact hindex v hv hdurable)

/-! ### Calls -/

theorem deletedIn_returnEvents (req : Request) (result : Except Err Unit) (log : List Event)
    (k : Key) : deletedIn (returnEvents req result ++ log) k = deletedIn log k := by
  cases req <;> cases result <;> rfl

theorem deletedIn_retAll (result : Except Err Unit) (owners : List (Thread × Request))
    (m : Machine) (k : Key) : deletedIn (retAll result owners m).log k = deletedIn m.log k := by
  induction owners generalizing m with
  | nil => rfl
  | cons o owners ih => exact (ih _).trans (deletedIn_returnEvents o.2 result m.log k)

theorem DeletedDead.ret (h : DeletedDead m) (t : Thread) (req : Request)
    (result : Except Err Unit) : DeletedDead (m.ret t req result) :=
  h.of_same_view rfl rfl rfl (h.calls.ret t req result) fun k hk => by
    rwa [← deletedIn_returnEvents req result]

/-- A batch that failed is not visible. -/
theorem DeletedDead.retAll (h : DeletedDead m) (result : Except Err Unit)
    (owners : List (Thread × Request)) (hs : Store.Unseen m.store s) :
    DeletedDead (retAll result owners { m with store := s }) := by
  have hcalls : CallsOK (Machine.retAll result owners { m with store := s }) :=
    CallsOK.retAll (m := { m with store := s }) (h.calls.congr rfl) result owners
  have hlog := deletedIn_retAll result owners { m with store := s }
  rw [retAll_eq] at hcalls hlog ⊢
  refine h.of_same_view hs.overlay hs.toKept.index rfl hcalls ?_
  intro k hk
  rwa [hlog] at hk

/-- A delete that finds nothing: nothing is known of the extent anywhere. -/
theorem dead_of_lookup_none (h : m.store.lookup k = none) : Dead m k := by
  rw [Store.lookup_eq, or_eq_none_iff, or_eq_none_iff] at h
  obtain ⟨⟨hentries, hdraining⟩, hindex⟩ := h
  exact ⟨by simp [hentries], by simp [hdraining], by simp [hindex]⟩

section

variable (h : DeletedDead m)
include h

theorem DeletedDead.start (c : FrameCodec) (t : Thread) (req : Request)
    (nonce : Nat → List UInt8) : DeletedDead (m.start c t req nonce) := by
  cases req with
  | write k data =>
    unfold Machine.start
    dsimp only
    split
    · exact h.ret t _ _
    · exact h.ret t _ _
    split
    · exact h.ret t _ _
    rename_i pw hbuild
    refine h.of_same_view rfl rfl rfl ?_ fun _ => id
    refine h.calls.insert t _ _ ?_ (by simp) _ _ _ _ _
    intro pw' heq
    obtain rfl := Progress.submitted.inj heq
    exact buildWrite_matches hbuild
  | delete k =>
    unfold Machine.start
    dsimp only
    split
    · rename_i hlook
      refine .ret ?_ t _ _
      refine ⟨⟨h.flush.idle, h.flush.muts, h.flush.applied⟩,
        (h.calls.congr rfl), fun k' hk' => ?_⟩
      by_cases heq : k = k'
      · subst heq
        exact dead_of_lookup_none hlook
      · have hk'' : deletedIn m.log k' = true := by simpa [deletedIn, heq] using hk'
        obtain ⟨hentries, hdraining, hindex⟩ := h.dead k' hk''
        exact ⟨hentries, hdraining, hindex⟩
    · rename_i v _
      refine h.of_same_view rfl rfl rfl ?_ fun _ => id
      refine h.calls.insert t _ _ ?_ (by simp) _ _ _ _ _
      intro pw' heq
      obtain rfl := Progress.submitted.inj heq
      exact ⟨v, rfl⟩

/-- A mutation is handed to the queue, or applied at once since the queue is full. -/
theorem DeletedDead.enqueue {x : Mutation}
    (hoverlay : s.overlay = m.store.overlay) (hindex : s.index = m.store.index)
    (hsafe : Store.applyCap ≤ s.applyCh.length → ApplySafe m x) :
    DeletedDead { m with store := s.enqueueApply [x] } := by
  have hcalls : CallsOK { m with store := s.enqueueApply [x] } :=
    h.calls.congr rfl
  rcases s.enqueueApply_cases [x] with ⟨-, heq⟩ | ⟨hfull, heq⟩
  · rw [heq] at hcalls ⊢
    exact h.of_same_view hoverlay hindex rfl hcalls fun _ => id
  · rw [heq] at hcalls ⊢
    have hsafe' : ∀ y ∈ [x], ApplySafe m y := by simpa using hsafe hfull
    exact h.apply hsafe' hoverlay (congrArg (Index.applyNow · [x]) hindex) rfl hcalls fun _ => id

theorem DeletedDead.finish {t : Thread} (hguard : KeepsDeleted m (.finish t))
    (hstep : m.finish t = some m') : DeletedDead m' := by
  unfold Machine.finish at hstep
  split at hstep
  · rename_i req pw hlook
    cases hstep
    refine .ret ?_ t req _
    unfold Store.finish
    split
    · rename_i hnone
      exact h.enqueue rfl rfl fun hfull => hguard hfull req pw hlook hnone
    -- A tombstone never undoes a delete.
    rename_i v hsome
    refine h.enqueue rfl rfl fun _ hdurable => ?_
    have hmatch := h.calls.committed t req pw hlook
    cases req with
    | write k data =>
      rw [hmatch.2.2.1] at hsome
      simp at hsome
    | delete k =>
      obtain ⟨v', hv'⟩ := hmatch
      rw [hv'] at hsome
      cases hsome
      simp [Store.tombstoneOf] at hdurable
  · simp at hstep

/-- The compactor appends a record of an extent that is known as durable. -/
theorem DeletedDead.append {now : UInt64} {pw : PendingWrite}
    (hk : LooksDurable m pw.key) :
    DeletedDead { m with store := (m.store.appendRecord none now pw).2 } := by
  rcases Store.appendRecord_cases now pw m.store with hunseen | ⟨placed, -, s1, s2, hkept, hput,
    rfl, hunseen⟩
  · exact h.of_same_view hunseen.overlay hunseen.toKept.index rfl
      (h.calls.congr rfl) fun _ => id
  have h1 : DeletedDead { m with store := s1 } := h.publish hk hput hkept.index rfl rfl rfl
  have h2 := h1.enqueue (s := s1) (x := ⟨pw.key, placed.location .durable⟩) rfl rfl (by
    -- The record's own entry is still in the overlay.
    refine fun _ _ => .inl (.inl ?_)
    simp [hput])
  exact h2.of_same_view hunseen.overlay hunseen.toKept.index rfl
    (h2.calls.congr rfl) fun _ => id

/-! ### Runs -/

/-- **One step that keeps deleted extents deleted.** -/
theorem DeletedDead.step {c : FrameCodec} {a : Action}
    (hguard : KeepsDeleted m a) (hstep : step c m a = some m') : DeletedDead m' := by
  have hcalls : CallsOK m := h.calls
  cases a with
  | start t req nonce =>
    obtain rfl := start_eq hstep
    exact h.start c t req nonce
  | commit ts now =>
    obtain ⟨hnone, -, batch, -, ⟨e, s, -, hunseen, rfl⟩ | ⟨placed, s, -, -, hkept, hoverlay,
      hmatch, rfl⟩⟩ := commit_cases hstep h.calls
    · exact h.retAll _ _ hunseen
    · exact h.commit hnone hmatch hkept hoverlay
  | finish t => exact h.finish hguard hstep
  | take =>
    obtain ⟨muts, queue, -, -, rfl⟩ := take_cases hstep
    exact h.of_same_view rfl rfl rfl (hcalls.congr rfl) fun _ => id
  | applyTaken =>
    obtain ⟨muts, hmuts, rfl⟩ := applyTaken_cases hstep
    exact h.apply (hguard muts hmuts) rfl rfl rfl (hcalls.congr rfl) fun _ => id
  | flushDrain =>
    obtain ⟨hnone, rfl⟩ := flushDrain_cases hstep
    exact h.drain hnone
  | flushApply =>
    obtain ⟨fl, hfl, rfl⟩ := flushApply_cases hstep
    exact h.flushApply hfl
  | flushMark =>
    obtain ⟨fl, hfl, ⟨e, -, rfl⟩ | ⟨cp, -, rfl⟩⟩ := flushMark_cases hstep
    · have hs := Store.writeIndexSafeLocked_unseen none fl.safe m.store
      exact h.abort hs.overlay hs.toKept.index
    · exact h.marked hfl (Store.writeIndexSafeLocked_unseen none fl.safe m.store) cp
  | flushStore =>
    obtain ⟨fl, cp, hfl, rfl | ⟨-, rfl⟩⟩ := flushStore_cases hstep
    · exact h.abort rfl rfl
    · exact h.discard hfl (by simp) rfl rfl
  | flushAbort =>
    obtain rfl := flushAbort_eq hstep
    exact h.abort rfl rfl
  | append k data codec nonce now =>
    obtain ⟨-, rfl | ⟨pw, rfl, -, rfl⟩⟩ := append_cases hstep
    · exact h
    · exact h.append hguard
  | relocateCheck r =>
    cases hstep
    rw [relocateCheck_eq]
    exact h.of_same_view rfl rfl rfl (hcalls.congr rfl) fun _ => id
  | relocatePut r =>
    obtain rfl := relocatePut_eq hstep
    exact h.publish hguard rfl rfl rfl rfl rfl

end

theorem deletedDead_init (hs : s.overlay.draining = ∅) : DeletedDead (init s) :=
  ⟨FlushOK.ended (m := init s) hs, ⟨by simp [init], by simp [init]⟩, by simp [init, deletedIn]⟩

/--
**A deleted extent stays deleted.**  In every run of requests, applies, flushes,
appends and relocations in which no step brings a deleted extent back, an extent is
never seen as durable while its delete is the last committed record of it.
-/
theorem deleted_stays_deleted (c : FrameCodec) (s : Store) (hs : s.overlay.draining = ∅)
    (acts : List Action) (hmeets : Guarded.Meets (step c) KeepsDeleted acts (init s))
    (m : Machine) (hrun : Guarded.run (step c) acts (init s) = some m) (k : Key)
    (hk : deletedIn m.log k = true) (v : Value) (hv : m.store.lookup k = some v) :
    v.state ≠ .durable := by
  have hinv : DeletedDead m :=
    Guarded.run_invariant (fun _ _ _ h hguard hstep => h.step hguard hstep)
      (deletedDead_init hs) hmeets hrun
  intro hdurable
  exact (hinv.dead k hk).not_looksDurable ⟨v, hv, hdurable⟩

open SampleMachine in
/-- A write and a delete of one extent with a whole flush between commit and return: the extent is
known, and not durable. -/
theorem deleted_stays_deleted_flushed :
    ∃ m v, Guarded.run (step codec) flushedDelete (init emptyStore) = some m ∧
      deletedIn m.log (7, 1) = true ∧ m.idle 2 = true ∧ m.store.lookup (7, 1) = some v ∧
      v.state ≠ .durable := by
  have hmeets : Guarded.Meets (step codec) KeepsDeleted flushedDelete (init emptyStore) := by
    refine ⟨trivial, fun s1 h1 => ⟨trivial, fun s2 h2 => ⟨trivial, fun s3 h3 => ⟨trivial,
      fun s4 h4 => ⟨trivial, fun s5 h5 => ⟨trivial, fun s6 h6 => ⟨trivial, fun s7 h7 =>
        ⟨trivial, fun s8 h8 => ⟨?_, fun _ _ => trivial⟩⟩⟩⟩⟩⟩⟩⟩⟩
    -- The queue is empty when the delete hands its tombstone over.
    have hrun : Guarded.run (step codec) (flushedDelete.take 8) (init emptyStore) = some s8 := by
      simp [flushedDelete, Guarded.run, h1, h2, h3, h4, h5, h6, h7, h8]
    have hqueue : (Guarded.run (step codec) (flushedDelete.take 8) (init emptyStore)).map
        (·.store.applyCh.length) = some 0 := by decide +kernel
    intro hfull
    rw [hrun] at hqueue
    simp only [map_some, Option.some.injEq] at hqueue
    simp [hqueue, Store.applyCap] at hfull
  have hend : (Guarded.run (step codec) flushedDelete (init emptyStore)).map (fun m =>
      (deletedIn m.log (7, 1), m.idle 2, (m.store.lookup (7, 1)).isSome)) =
        some (true, true, true) := by decide +kernel
  obtain ⟨m, hm, heq⟩ := map_eq_some_iff.mp hend
  simp only [Prod.mk.injEq] at heq
  obtain ⟨v, hv⟩ := isSome_iff_exists.mp heq.2.2
  exact ⟨m, v, hm, heq.1, heq.2.1, hv,
    deleted_stays_deleted codec _ rfl flushedDelete hmeets m hm (7, 1) heq.1 v hv⟩

open SampleMachine in
/-- The write's own location is still on its way when the tombstone has been flushed: applied
last, it makes the deleted extent durable again. -/
theorem stale_apply_revives_deleted :
    (Guarded.run (step codec) (flushedDelete ++ [.finish 1, .take, .applyTaken, .take,
        .applyTaken]) (init emptyStore)).map (fun m =>
      (deletedIn m.log (7, 1), m.idle 2, (m.store.lookup (7, 1)).map (·.state))) =
    some (true, true, some .durable) := by
  decide +kernel

end Machine

end Nufs.Storage
