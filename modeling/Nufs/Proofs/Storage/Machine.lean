/-
What the steps of a serving store do to the locations it knows.

An extent is looked up in the entries of the overlay, then in what a flush is
handing over, then in the index.  This file says how each of these changes in a
step, and that a flush in progress never loses a location.
-/
import Nufs.Lib.Guarded
import Nufs.Storage.Machine
import Nufs.Proofs.Storage.Visible

namespace Nufs.Storage

open ByteFile List AList Option Store

/-! ### Maps -/

variable {ix : Index}

theorem lookup_union {ix' : Index} (k : Key) :
    (ix ∪ ix').lookup k = (ix.lookup k).or (ix'.lookup k) := by
  by_cases hk : k ∈ ix
  · obtain ⟨v, hv⟩ := isSome_iff_exists.mp (lookup_isSome.mpr hk)
    rw [lookup_union_left hk, hv, some_or]
  · rw [lookup_union_right hk, lookup_eq_none.mpr hk, none_or]

/-- After a batch of mutations a key has its old value or one of the batch. -/
theorem lookup_applyNow (ix : Index) (muts : List Mutation) (k : Key) :
    (∀ x ∈ muts, x.key ≠ k) ∧ (ix.applyNow muts).lookup k = ix.lookup k ∨
      ∃ x ∈ muts, x.key = k ∧ (ix.applyNow muts).lookup k = some x.value := by
  induction muts generalizing ix with
  | nil => exact .inl ⟨by simp, rfl⟩
  | cons x muts ih =>
    have hcons : ix.applyNow (x :: muts) = Index.applyNow (ix.insert x.key x.value) muts := rfl
    rw [hcons]
    rcases ih (ix.insert x.key x.value) with ⟨hnone, heq⟩ | ⟨y, hy, hkey, heq⟩
    · by_cases hx : x.key = k
      · subst hx
        exact .inr ⟨x, by simp, rfl, by rw [heq, lookup_insert]⟩
      · refine .inl ⟨forall_mem_cons.mpr ⟨hx, hnone⟩, ?_⟩
        rw [heq, lookup_insert_ne (Ne.symm hx)]
    · exact .inr ⟨y, by simp [hy], hkey, heq⟩

theorem lookup_isSome_applyNow {muts : List Mutation} {k : Key} (h : (ix.lookup k).isSome) :
    ((ix.applyNow muts).lookup k).isSome := by
  rcases lookup_applyNow ix muts k with ⟨-, heq⟩ | ⟨x, -, -, heq⟩
  · rwa [heq]
  · simp [heq]

namespace Overlay

variable (o : Overlay)

@[simp] theorem entries_put (k : Key) (v : Value) :
    (o.put k v).entries = o.entries.insert k v := rfl
@[simp] theorem draining_put (k : Key) (v : Value) : (o.put k v).draining = o.draining := rfl
@[simp] theorem entries_drain : o.drain.entries = ∅ := rfl
@[simp] theorem draining_drain : o.drain.draining = o.entries ∪ o.draining := rfl
@[simp] theorem entries_discardDrained : o.discardDrained.entries = o.entries := rfl
@[simp] theorem draining_discardDrained : o.discardDrained.draining = ∅ := rfl
@[simp] theorem entries_restoreDrained : o.restoreDrained.entries = o.entries ∪ o.draining := rfl
@[simp] theorem draining_restoreDrained : o.restoreDrained.draining = ∅ := rfl

/-- What a flush drains is what the entries hold. -/
theorem mem_drained {o : Overlay} {x : Mutation} :
    x ∈ o.drained ↔ o.entries.lookup x.key = some x.value := by
  rw [← mem_def, mem_lookup_iff]
  constructor
  · intro h
    obtain ⟨e, he, rfl⟩ := mem_map.mp h
    exact he
  · intro h
    exact mem_map.mpr ⟨⟨x.key, x.value⟩, h, rfl⟩

end Overlay

/-- A flush moves what the overlay holds to the index. -/
theorem lookup_applyNow_drained (ix : Index) (o : Overlay) (k : Key) :
    (ix.applyNow o.drained).lookup k = (o.entries.lookup k).or (ix.lookup k) := by
  rcases lookup_applyNow ix o.drained k with ⟨hnone, heq⟩ | ⟨x, hx, rfl, heq⟩
  · cases hk : o.entries.lookup k with
    | none => rw [heq, none_or]
    | some v => exact absurd rfl (hnone ⟨k, v⟩ (Overlay.mem_drained.mpr hk))
  · rw [heq, Overlay.mem_drained.mp hx, some_or]

namespace Store

section

variable (o : Overlay) (placed : List PlacedWrite)

@[simp] theorem draining_putPlaced :
    (putPlaced o placed).draining = o.draining := by
  induction placed generalizing o with
  | nil => rfl
  | cons pw placed ih => exact ih _

theorem entries_putPlaced : (putPlaced o placed).entries =
    Index.applyNow o.entries (placed.map fun pw => ⟨pw.key, pw.published⟩) := by
  induction placed generalizing o with
  | nil => rfl
  | cons pw placed ih => exact ih _

/-- Publication gives a key its old entry or the published value of one of the writes. -/
theorem lookup_putPlaced (k : Key) :
    (∀ pw ∈ placed, pw.key ≠ k) ∧ (putPlaced o placed).entries.lookup k = o.entries.lookup k ∨
      ∃ pw ∈ placed, pw.key = k ∧ (putPlaced o placed).entries.lookup k = some pw.published := by
  rw [entries_putPlaced]
  rcases lookup_applyNow o.entries _ k with ⟨hnone, heq⟩ | ⟨x, hx, hkey, heq⟩
  · exact .inl ⟨fun pw hpw => hnone _ (mem_map_of_mem hpw), heq⟩
  · obtain ⟨pw, hpw, rfl⟩ := mem_map.mp hx
    exact .inr ⟨pw, hpw, hkey, heq⟩

end

theorem lookup_eq (s : Store) (k : Key) :
    s.lookup k = ((s.overlay.entries.lookup k).or (s.overlay.draining.lookup k)).or
      (s.index.lookup k) := rfl

/-- Handing mutations over leaves the overlay alone and at most applies them. -/
theorem enqueueApply_cases (s : Store) (muts : List Mutation) : (s.applyCh.length < applyCap ∧
        s.enqueueApply muts = { s with applyCh := s.applyCh ++ [muts] }) ∨
      (applyCap ≤ s.applyCh.length ∧ s.enqueueApply muts = s.applyNow muts) := by
  unfold enqueueApply
  split_ifs with h
  · exact .inl ⟨h, rfl⟩
  · exact .inr ⟨Nat.le_of_not_lt h, rfl⟩

/-- What appending a record makes visible: nothing, or its location, which is then handed over. -/
theorem appendRecord_cases (now : UInt64) (pw : PendingWrite) (s : Store) :
    Unseen s (appendRecord none now pw s).2 ∨ ∃ placed : PlacedWrite, placed.toPendingWrite = pw ∧
        ∃ s1 s2 : Store, Kept s s1 ∧ s1.overlay = s.overlay.put pw.key (placed.location .durable) ∧
          s2 = s1.enqueueApply [⟨pw.key, placed.location .durable⟩] ∧
          Unseen s2 (appendRecord none now pw s).2 := by
  have hres : Unseen s (reserveOne none now pw s).2.2 := by
    obtain ⟨_, _, hroom, ⟨e, heq⟩ | ⟨off, alloc, -, heq⟩⟩ := reserveOne_cases none now pw s
    · rw [heq]
      exact hroom.unseen
    · rw [heq]
      exact hroom.unseen.trans ⟨⟨rfl, rfl, rfl, rfl, rfl, rfl⟩, rfl⟩
  unfold appendRecord
  split
  · rename_i heq
    rw [heq] at hres
    exact .inl hres
  rename_i off fault s1 heq
  rw [heq] at hres
  split
  · exact .inl hres
  rename_i alloc _
  dsimp only
  split
  · exact .inl (hres.trans ⟨⟨rfl, rfl, rfl, rfl, rfl, rfl⟩, rfl⟩)
  refine .inr ⟨⟨pw, s1.alloc.segmentID, off, s1.streamSeq⟩, rfl, ?_⟩
  refine ⟨_, _, ?_, ?_, rfl, ⟨rfl, rfl, rfl, rfl, rfl, rfl⟩, rfl⟩
  · rw [publishRecoveryBatch_eq]
    exact hres.toKept.trans ⟨rfl, rfl, rfl, rfl, rfl, rfl⟩
  · rw [publishRecoveryBatch_eq]
    exact congrArg (Overlay.put · _ _) hres.overlay

theorem writeIndexSafeLocked_eq (fault : Fault) (safeSeq : UInt64) (s : Store) :
    let s' := (writeIndexSafeLocked fault safeSeq s).2
    s' = { s with files := s'.files, alloc := s'.alloc } := by
  unfold writeIndexSafeLocked
  split
  · rfl
  · split <;> rfl

/-- Writing a marker is not visible. -/
theorem writeIndexSafeLocked_unseen (fault : Fault) (safeSeq : UInt64) (s : Store) :
    Unseen s (writeIndexSafeLocked fault safeSeq s).2 := by
  rw [writeIndexSafeLocked_eq]
  exact ⟨⟨rfl, rfl, rfl, rfl, rfl, rfl⟩, rfl⟩

variable {c : FrameCodec} {nonce : Nat → List UInt8} {k : Key} {data : List UInt8}
  {pw : PendingWrite}

variable {codec : CompressionCodec}

/-- The record of a PUT that could be built. -/
theorem buildPut_ok {compressed : Bool}
    {key : UInt64 × Option (List UInt8)}
    (h : buildPut c nonce k data compressed codec key = .ok pw) :
    ∃ stored entries, buildFramedRecord c data compressed key.2 nonce = .ok (stored, entries) ∧
      pw = ⟨putHeader k.1 k.2 data stored entries codec key.1, FrameIndex.encode entries, stored,
        none⟩ := by
  cases hrec : buildFramedRecord c data compressed key.2 nonce with
  | error e => simp [buildPut, hrec] at h
  | ok r =>
    rw [buildPut, hrec] at h
    exact ⟨r.1, r.2, rfl, (Except.ok.inj h).symm⟩

theorem buildWrite_ok (h : buildWrite c nonce k data = .ok pw) :
    ∃ key, encKey c = .ok key ∧ buildPut c nonce k data (shouldCompress c data)
      (if shouldCompress c data then .zstd else .none) key = .ok pw := by
  unfold buildWrite at h
  split at h
  · simp at h
  · exact ⟨_, ‹_›, h⟩

theorem buildAppend_ok (h : buildAppend c nonce k data codec = .ok pw) :
    ∃ key, encKey c = .ok key ∧ buildPut c nonce k data (codec = .zstd) codec key = .ok pw := by
  unfold buildAppend at h
  split at h
  · simp at h
  · exact ⟨_, ‹_›, h⟩

end Store

/-! ### Flushes -/

namespace Machine

/-- A flush in progress holds what is draining; once it has applied, the index has it too. -/
structure FlushOK (m : Machine) : Prop where
  idle : m.flushing = none → m.store.overlay.draining = ∅
  muts : ∀ fl ph, m.flushing = some (fl, ph) →
    ∀ k v, m.store.overlay.draining.lookup k = some v ↔ (⟨k, v⟩ : Mutation) ∈ fl.muts
  applied : ∀ fl ph, m.flushing = some (fl, ph) → ph ≠ .drained →
    ∀ k, (m.store.overlay.draining.lookup k).isSome → (m.store.index.lookup k).isSome

variable {m m' : Machine} {s : Store} {placed : List PlacedWrite} {ts : List Thread}
  {batch : List (Request × PendingWrite)} {now : UInt64}

/-- A step that leaves the flush alone and takes nothing out of the index. -/
theorem FlushOK.of_frame (h : FlushOK m)
    (hdraining : m'.store.overlay.draining = m.store.overlay.draining)
    (hflushing : m'.flushing = m.flushing)
    (hindex : ∀ k, (m.store.index.lookup k).isSome → (m'.store.index.lookup k).isSome) :
    FlushOK m' where
  idle := by
    rw [hdraining, hflushing]
    exact h.idle
  muts := by
    rw [hdraining, hflushing]
    exact h.muts
  applied := by
    rw [hdraining, hflushing]
    intro fl ph hfl hph k hk
    exact hindex k (h.applied fl ph hfl hph k hk)

theorem FlushOK.drain (h : FlushOK m) (hnone : m.flushing = none) : FlushOK { m with
      store := m.store.flushDrain.2
      flushing := m.store.flushDrain.1.map fun fl => (fl, .drained) } where
  idle := by
    intro hmap
    have hdrained : m.store.overlay.drained = [] := by
      by_contra hne
      simp [Store.flushDrain, hne] at hmap
    have hempty : m.store.overlay.entries = ∅ := by
      ext1
      exact map_eq_nil_iff.mp hdrained
    simp [Store.flushDrain, hempty, h.idle hnone]
  muts := by
    intro fl ph hfl k v
    have hmuts : fl.muts = m.store.overlay.drained := by
      simp only [Store.flushDrain] at hfl
      split_ifs at hfl
      · simp at hfl
      · simp only [map_some, some.injEq, Prod.mk.injEq] at hfl
        rw [← hfl.1]
    rw [hmuts, Overlay.mem_drained]
    simp [Store.flushDrain, h.idle hnone]
  applied := by
    intro fl ph hfl hph
    simp only [map_eq_some_iff, Prod.mk.injEq] at hfl
    obtain ⟨fl', -, -, rfl⟩ := hfl
    exact absurd rfl hph

variable {fl : Flush} {c : FrameCodec} {nonce : Nat → List UInt8} {k : Key} {data : List UInt8}
  {pw : PendingWrite} {owners : List (Thread × Request)} {t : Thread} {req : Request}

theorem FlushOK.flushApply (h : FlushOK m) (hfl : m.flushing = some (fl, .drained)) :
    FlushOK { m with store := m.store.applyNow fl.muts, flushing := some (fl, .applied) } where
  idle := by simp
  muts := by
    intro fl' ph hfl' k v
    cases hfl'
    exact h.muts fl _ hfl k v
  applied := by
    intro fl' ph hfl' _ k hk
    cases hfl'
    obtain ⟨v, hv⟩ := isSome_iff_exists.mp hk
    have hmem := (h.muts fl _ hfl k v).mp hv
    rcases lookup_applyNow m.store.index fl.muts k with ⟨hnone, -⟩ | ⟨x, -, -, heq⟩
    · exact absurd rfl (hnone _ hmem)
    · exact isSome_iff_exists.mpr ⟨_, heq⟩

theorem FlushOK.marked (h : FlushOK m) (hfl : m.flushing = some (fl, .applied))
    (hs : Store.Unseen m.store s) (cp : RecoveryCheckpoint) :
    FlushOK { m with store := s, flushing := some (fl, .marked cp) } where
  idle := by simp
  muts := by
    intro fl' ph hfl' k v
    cases hfl'
    rw [hs.overlay]
    exact h.muts fl _ hfl k v
  applied := by
    intro fl' ph hfl' _ k hk
    rw [hs.overlay] at hk
    rw [hs.toKept.index]
    exact h.applied fl _ hfl (by simp) k hk

theorem FlushOK.ended (hs : s.overlay.draining = ∅) :
    FlushOK { m with store := s, flushing := none } :=
  ⟨fun _ => hs, by simp, by simp⟩

/-! ### Calls -/

/-- The pending write is the one of the request. -/
def Matches : Request → PendingWrite → Prop
  | .write k data, pw =>
    pw.key = k ∧ pw.header.op = .put ∧ pw.publishedValue = none ∧
      pw.header.payloadChecksum = crc32c data
  | .delete k, pw => ∃ v, pw = Store.deletePending k v

theorem buildWrite_matches (h : Store.buildWrite c nonce k data = .ok pw) :
    Matches (.write k data) pw := by
  obtain ⟨key, -, hput⟩ := buildWrite_ok h
  obtain ⟨stored, entries, -, rfl⟩ := buildPut_ok hput
  exact ⟨rfl, rfl, rfl, rfl⟩

/-- Every call in flight carries the write of its request. -/
structure CallsOK (m : Machine) : Prop where
  submitted : ∀ t req pw, m.calls.lookup t = some (req, .submitted pw) → Matches req pw
  committed : ∀ t req (pw : PlacedWrite), m.calls.lookup t = some (req, .committed pw) →
    Matches req pw.toPendingWrite

theorem CallsOK.congr (h : CallsOK m) (hcalls : m'.calls = m.calls) : CallsOK m' := by
  refine ⟨?_, ?_⟩
  · rw [hcalls]
    exact h.submitted
  · rw [hcalls]
    exact h.committed

/-- One call moves on. -/
theorem CallsOK.insert (h : CallsOK m) (t : Thread) (req : Request) (p : Progress)
    (hsub : ∀ pw, p = .submitted pw → Matches req pw)
    (hcom : ∀ pw : PlacedWrite, p = .committed pw → Matches req pw.toPendingWrite) (s : Store)
    (taken : Option (List Mutation)) (flushing : Option (Flush × FlushPhase))
    (relocating : List Reloc) (log : List Event) :
    CallsOK ⟨s, m.calls.insert t (req, p), taken, flushing, relocating, log⟩ := by
  refine ⟨fun t' req' pw hlook => ?_, fun t' req' pw hlook => ?_⟩
  all_goals
    by_cases ht : t' = t
    · subst ht
      simp only [lookup_insert, some.injEq, Prod.mk.injEq] at hlook
      obtain ⟨rfl, hp⟩ := hlook
      first
        | exact hsub pw hp
        | exact hcom pw hp
    · simp only [lookup_insert_ne ht] at hlook
      first
        | exact h.submitted t' req' pw hlook
        | exact h.committed t' req' pw hlook

theorem CallsOK.ret (h : CallsOK m) (t : Thread) (req : Request) (result : Except Err Unit) :
    CallsOK (m.ret t req result) :=
  h.insert t req _ (by simp) (by simp) _ _ _ _ _

theorem CallsOK.retAll (h : CallsOK m) (result : Except Err Unit)
    (owners : List (Thread × Request)) : CallsOK (retAll result owners m) := by
  induction owners generalizing m with
  | nil => exact h
  | cons o owners ih => exact ih (h.ret o.1 o.2 result)

theorem CallsOK.commitAll
    (hmatch : List.Forall₂ (fun o (pw : PlacedWrite) => Matches o.2 pw.toPendingWrite)
      owners placed)
    (h : CallsOK m) : CallsOK (commitAll owners placed m) := by
  induction hmatch generalizing m with
  | nil => exact h
  | @cons o pw owners placed hpw _ ih =>
    refine ih (h.insert o.1 o.2 _ (by simp) ?_ _ _ _ _ _)
    intro pw' heq
    obtain rfl := Progress.committed.inj heq
    exact hpw

/-- Only calls and log change when calls return. -/
theorem retAll_eq (result : Except Err Unit) (owners : List (Thread × Request)) (m : Machine) :
    retAll result owners m =
      { m with calls := (retAll result owners m).calls, log := (retAll result owners m).log } := by
  induction owners generalizing m with
  | nil => rfl
  | cons o owners ih => exact ih _

/-- Only calls and log change when calls go on. -/
theorem commitAll_eq (owners : List (Thread × Request)) (placed : List PlacedWrite) (m : Machine) :
    commitAll owners placed m = { m with
        calls := (commitAll owners placed m).calls
        log := (commitAll owners placed m).log } := by
  induction owners generalizing m placed with
  | nil => cases placed <;> rfl
  | cons o owners ih =>
    cases placed with
    | nil => rfl
    | cons pw placed => exact ih _ _

/-- The log behind a committed batch. -/
def logCommitted (log : List Event) (placed : List PlacedWrite) : List Event :=
  placed.foldl (fun log pw => .committed pw.key pw.header.op :: log) log

theorem commitAll_log (hlen : owners.length = placed.length) (m : Machine) :
    (commitAll owners placed m).log = logCommitted m.log placed := by
  induction owners generalizing m placed with
  | nil =>
    obtain rfl : placed = [] := length_eq_zero_iff.mp hlen.symm
    rfl
  | cons o owners ih =>
    cases placed with
    | nil => simp at hlen
    | cons pw placed => exact ih (Nat.succ.inj hlen) _

theorem submitted_eq_some (h : m.submitted t = some (req, pw)) :
    m.calls.lookup t = some (req, .submitted pw) := by
  unfold submitted at h
  split at h
  · rename_i req' pw' hlook
    obtain ⟨rfl, rfl⟩ : req' = req ∧ pw' = pw := by simpa using h
    exact hlook
  · simp at h

section

variable (hbatch : ts.mapM m.submitted = some batch)
include hbatch

theorem submitted_batch :
    List.Forall₂ (fun t p => m.calls.lookup t = some (p.1, .submitted p.2)) ts batch := by
  induction ts generalizing batch with
  | nil =>
    obtain rfl : [] = batch := by simpa using hbatch
    exact .nil
  | cons t ts ih =>
    simp only [mapM_cons, bind_eq_bind, bind_eq_some_iff] at hbatch
    obtain ⟨q, ht, rest, hrest, hcons⟩ := hbatch
    obtain rfl : q :: rest = batch := by simpa using hcons
    exact .cons (submitted_eq_some ht) (ih hrest)

/-- Every member of a batch was waiting for it. -/
theorem waiting_of_mem {p : Request × PendingWrite}
    (hp : p ∈ batch) : ∃ t ∈ ts, m.calls.lookup t = some (p.1, .submitted p.2) := by
  have hsubmitted := submitted_batch hbatch
  clear hbatch
  induction hsubmitted with
  | nil => simp at hp
  | @cons t q _ _ ht _ ih =>
    rcases mem_cons.mp hp with rfl | hp
    · exact ⟨t, by simp, ht⟩
    · obtain ⟨t', ht', hlook⟩ := ih hp
      exact ⟨t', by simp [ht'], hlook⟩

theorem length_batch : batch.length = ts.length :=
  (submitted_batch hbatch).length_eq.symm

/-- Every placed write of a batch belongs to a call that was waiting for it. -/
theorem waiting_of_placed
    (hplaced : placed.map PlacedWrite.toPendingWrite = batch.map Prod.snd) {pw : PlacedWrite}
    (hpw : pw ∈ placed) :
    ∃ t req, (req, pw.toPendingWrite) ∈ batch ∧
      m.calls.lookup t = some (req, .submitted pw.toPendingWrite) := by
  have hmem : pw.toPendingWrite ∈ batch.map Prod.snd := by
    rw [← hplaced]
    exact mem_map_of_mem hpw
  obtain ⟨⟨req, pw'⟩, hp, rfl⟩ := mem_map.mp hmem
  obtain ⟨t, -, hlook⟩ := waiting_of_mem hbatch hp
  exact ⟨t, req, hp, hlook⟩

end

/-- The members of a batch with their owners. -/
theorem matches_batch (h : CallsOK m) (hbatch : ts.mapM m.submitted = some batch)
    (hplaced : placed.map PlacedWrite.toPendingWrite = batch.map Prod.snd) :
    List.Forall₂ (fun o (pw : PlacedWrite) => Matches o.2 pw.toPendingWrite)
      (ts.zip (batch.map Prod.fst)) placed := by
  have hsubmitted := submitted_batch hbatch
  clear hbatch
  induction hsubmitted generalizing placed with
  | nil =>
    obtain rfl : placed = [] := by simpa using hplaced
    exact .nil
  | cons ht _ ih =>
    cases placed with
    | nil => simp at hplaced
    | cons pw' placed =>
      simp only [map_cons, List.cons.injEq] at hplaced
      refine .cons ?_ (ih hplaced.2)
      rw [hplaced.1]
      exact h.submitted _ _ _ ht

/-- The placed writes of a committed batch are its pending writes. -/
theorem placed_of_commitBatch {batch : List PendingWrite} {s' : Store}
    (h : Store.commitBatch none now batch s = (.ok placed, s')) :
    placed.map PlacedWrite.toPendingWrite = batch := by
  have hcommits := commitBatch_commits none now batch s
  rw [h] at hcommits
  cases hcommits with
  | committed _ hplaced _ => exact hplaced

/-- **What a commit step does.** -/
theorem commit_cases (h : m.commit ts now = some m') (hcalls : CallsOK m) :
    m.flushing = none ∧ ts ≠ [] ∧ ∃ batch, ts.mapM m.submitted = some batch ∧
      ((∃ e s, Store.commitBatch none now (batch.map Prod.snd) m.store = (.error e, s) ∧
          Store.Unseen m.store s ∧
          m' = retAll (.error e) (ts.zip (batch.map Prod.fst)) { m with store := s }) ∨
        ∃ placed s, Store.commitBatch none now (batch.map Prod.snd) m.store = (.ok placed, s) ∧
          placed.map PlacedWrite.toPendingWrite = batch.map Prod.snd ∧ Store.Kept m.store s ∧
          s.overlay = Store.putPlaced m.store.overlay placed ∧
          List.Forall₂ (fun o (pw : PlacedWrite) => Matches o.2 pw.toPendingWrite)
            (ts.zip (batch.map Prod.fst)) placed ∧
          m' = commitAll (ts.zip (batch.map Prod.fst)) placed { m with store := s }) := by
  unfold commit at h
  split_ifs at h with hguard
  simp only [not_or] at hguard
  refine ⟨by simpa using hguard.1, hguard.2.1, ?_⟩
  cases hbatch : ts.mapM m.submitted with
  | none => simp [hbatch] at h
  | some batch =>
    refine ⟨batch, rfl, ?_⟩
    simp only [hbatch] at h
    have hcommits := commitBatch_commits none now (batch.map Prod.snd) m.store
    rcases hr : Store.commitBatch none now (batch.map Prod.snd) m.store with ⟨e | placed, s⟩
    · rw [hr] at h hcommits
      cases h
      cases hcommits with
      | unpublished hunseen => exact .inl ⟨e, s, rfl, hunseen, rfl⟩
      | failed hfault _ _ _ => exact absurd rfl hfault
    rw [hr] at h hcommits
    cases h
    cases hcommits with
    | committed hkept hplaced hoverlay =>
      exact .inr ⟨placed, s, rfl, hplaced, hkept, hoverlay,
        matches_batch hcalls hbatch hplaced, rfl⟩

/-! ### The other steps -/

theorem start_eq (h : step c m (.start t req nonce) = some m') : m' = m.start c t req nonce := by
  simp only [step] at h
  split_ifs at h
  exact (some.inj h).symm

theorem finish_cases (h : m.finish t = some m') :
    ∃ req pw, m.calls.lookup t = some (req, .committed pw) ∧
      m' = { m with store := m.store.finish pw }.ret t req (.ok ()) := by
  unfold finish at h
  split at h
  · exact ⟨_, _, ‹_›, (some.inj h).symm⟩
  · simp at h

theorem take_cases (h : m.take = some m') :
    ∃ muts queue, m.taken = none ∧ m.store.applyCh = muts :: queue ∧
      m' = { m with taken := some muts, store := { m.store with applyCh := queue } } := by
  unfold take at h
  split at h
  · exact ⟨_, _, ‹_›, ‹_›, (some.inj h).symm⟩
  · simp at h

theorem applyTaken_cases (h : m.applyTaken = some m') : ∃ muts, m.taken = some muts ∧
      m' = { m with taken := none, store := m.store.applyNow muts } := by
  unfold applyTaken at h
  split at h
  · simp at h
  · exact ⟨_, ‹_›, (some.inj h).symm⟩

theorem flushDrain_cases (h : m.flushDrain = some m') : m.flushing = none ∧ m' = { m with
      store := m.store.flushDrain.2
      flushing := m.store.flushDrain.1.map fun fl => (fl, .drained) } := by
  unfold flushDrain at h
  split at h
  · simp at h
  · exact ⟨‹_›, (some.inj h).symm⟩

theorem drained_flush {ph : FlushPhase}
    (h : (s.flushDrain.1.map fun fl => (fl, FlushPhase.drained)) = some (fl, ph)) :
    fl.safe = s.flushSeq ∧ ph = .drained := by
  obtain ⟨fl', hfl, heq⟩ := map_eq_some_iff.mp h
  cases heq
  simp only [Store.flushDrain] at hfl
  split_ifs at hfl
  cases hfl
  exact ⟨rfl, rfl⟩

theorem flushApply_cases (h : m.flushApply = some m') : ∃ fl, m.flushing = some (fl, .drained) ∧
      m' = { m with store := m.store.applyNow fl.muts, flushing := some (fl, .applied) } := by
  unfold flushApply at h
  split at h
  · exact ⟨_, ‹_›, (some.inj h).symm⟩
  · simp at h

theorem flushAbort_eq (h : m.flushAbort = some m') :
    m' = { m with store := m.store.flushAbort, flushing := none } := by
  unfold flushAbort at h
  split at h
  · simp at h
  · exact (some.inj h).symm

theorem relocatePut_eq {r : Reloc} (h : m.relocatePut r = some m') : m' = { m with
      relocating := m.relocating.erase r
      store := { m.store with
        overlay := m.store.overlay.put r.key r.value
        locCache := m.store.locCache.erase r.key } } := by
  unfold relocatePut at h
  split_ifs at h
  exact (some.inj h).symm

/-- A marker is written, or there is no room for it and the flush fails. -/
theorem flushMark_cases (h : m.flushMark = some m') : ∃ fl, m.flushing = some (fl, .applied) ∧
      ((∃ e, (m.store.writeIndexSafeLocked none fl.safe).1 = .error e ∧ m' = { m with
            store := (m.store.writeIndexSafeLocked none fl.safe).2.flushAbort
            flushing := none }) ∨
        ∃ cp, (m.store.writeIndexSafeLocked none fl.safe).1 = .ok cp ∧ m' = { m with
            store := (m.store.writeIndexSafeLocked none fl.safe).2
            flushing := some (fl, .marked cp) }) := by
  unfold flushMark at h
  split at h
  · rename_i fl hfl
    refine ⟨fl, hfl, ?_⟩
    split at h <;> rename_i heq <;> obtain rfl := some.inj h <;> rw [heq]
    · exact .inl ⟨_, rfl, rfl⟩
    · exact .inr ⟨_, rfl, rfl⟩
  · simp at h

/-- The checkpoint is stored and the flush ends, or it is refused and the flush fails. -/
theorem flushStore_cases (h : m.flushStore = some m') :
    ∃ fl cp, m.flushing = some (fl, .marked cp) ∧
      (m' = { m with store := m.store.flushAbort, flushing := none } ∨
        cp.safeSeq ≠ 0 ∧ m' = { m with
          store := { m.store with checkpoint := some cp }.flushDone fl
          flushing := none }) := by
  unfold flushStore at h
  split at h
  · rename_i fl cp hfl
    refine ⟨fl, cp, hfl, ?_⟩
    split at h
    · exact .inl (some.inj h).symm
    rename_i s hs
    unfold Store.storeRecoveryCheckpoint at hs
    split_ifs at hs with hvalid
    cases hs
    simp only [not_or] at hvalid
    exact .inr ⟨hvalid.2.2, (some.inj h).symm⟩
  · simp at h

theorem append_cases (h : m.append c k data codec nonce now = some m') :
    m.flushing = none ∧ (m' = m ∨ ∃ pw, pw.key = k ∧ pw.header.payloadChecksum = crc32c data ∧
      m' = { m with store := (m.store.appendRecord none now pw).2 }) := by
  unfold append at h
  split at h
  · simp at h
  refine ⟨‹_›, ?_⟩
  split at h
  · exact .inl (some.inj h).symm
  · rename_i pw hbuild
    obtain ⟨key, -, hput⟩ := buildAppend_ok hbuild
    obtain ⟨stored, entries, -, rfl⟩ := buildPut_ok hput
    exact .inr ⟨_, rfl, rfl, (some.inj h).symm⟩

/-- Looking for a tombstone only notes the relocation. -/
theorem relocateCheck_eq (r : Reloc) (m : Machine) :
    m.relocateCheck r = { m with relocating := (m.relocateCheck r).relocating } := by
  unfold relocateCheck
  split
  · split_ifs <;> rfl
  · rfl

theorem start_frame (c : FrameCodec) (t : Thread) (req : Request) (nonce : Nat → List UInt8)
    (m : Machine) :
    (m.start c t req nonce).store = m.store ∧ (m.start c t req nonce).flushing = m.flushing := by
  unfold Machine.start
  cases req with
  | write k data =>
    dsimp only
    split
    · exact ⟨rfl, rfl⟩
    · exact ⟨rfl, rfl⟩
    · split <;> exact ⟨rfl, rfl⟩
  | delete k =>
    dsimp only
    split <;> exact ⟨rfl, rfl⟩

theorem finish_frame (pw : PlacedWrite) (s : Store) : (s.finish pw = { s with
        index := (s.finish pw).index, applyCh := (s.finish pw).applyCh
        locCache := (s.finish pw).locCache }) ∧
      ∀ k, (s.index.lookup k).isSome → ((s.finish pw).index.lookup k).isSome := by
  unfold Store.finish
  split
  · rcases s.enqueueApply_cases [⟨pw.key, pw.location .durable⟩] with ⟨-, heq⟩ | ⟨-, heq⟩
    · rw [heq]
      exact ⟨rfl, fun _ => id⟩
    · rw [heq]
      exact ⟨rfl, fun _ => lookup_isSome_applyNow⟩
  rename_i v _
  rcases enqueueApply_cases { s with locCache := s.locCache.insert pw.key v } [⟨pw.key, v⟩] with
    ⟨-, heq⟩ | ⟨-, heq⟩
  · rw [heq]
    exact ⟨rfl, fun _ => id⟩
  · rw [heq]
    exact ⟨rfl, fun _ => lookup_isSome_applyNow⟩

/-- Steps that leave the files alone. -/
def isQuiet : Action → Bool
  | .commit .. | .flushMark | .flushStore | .append .. | .relocatePut _ => false
  | _ => true

/-- The files stay as they are, and a flush goes on or begins. -/
structure Quiet (m m' : Machine) : Prop where
  store : m'.store = { m.store with
    overlay := m'.store.overlay, index := m'.store.index, safeSeq := m'.store.safeSeq
    flushMutations := m'.store.flushMutations, applyCh := m'.store.applyCh
    locCache := m'.store.locCache }
  index : ∀ k, (m.store.index.lookup k).isSome → (m'.store.index.lookup k).isSome
  flushing : ∀ fl ph, m'.flushing = some (fl, ph) →
    fl.safe = m.store.flushSeq ∧ m'.store.overlay.entries = ∅ ∨
      (∃ ph', m.flushing = some (fl, ph')) ∧
        m'.store.overlay.entries = m.store.overlay.entries
  marked : ∀ fl cp, m'.flushing = some (fl, .marked cp) → m.flushing = some (fl, .marked cp)

theorem Quiet.of_flushing (hstore : m'.store = { m.store with
      index := m'.store.index, applyCh := m'.store.applyCh, locCache := m'.store.locCache })
    (hindex : ∀ k, (m.store.index.lookup k).isSome → (m'.store.index.lookup k).isSome)
    (hflushing : m'.flushing = m.flushing) : Quiet m m' := by
  have hoverlay : m'.store.overlay = m.store.overlay := by rw [hstore]
  refine ⟨?_, hindex, fun fl ph hfl => .inr ⟨⟨ph, ?_⟩, by rw [hoverlay]⟩, fun fl cp hfl => ?_⟩
  · rw [hstore]
  · rw [← hflushing, hfl]
  · rw [← hflushing, hfl]

theorem Quiet.of_step (hstep : step c m a = some m') (ha : isQuiet a = true) : Quiet m m' := by
  cases a with
  | start t req nonce =>
    obtain rfl := start_eq hstep
    obtain ⟨hstore, hflushing⟩ := start_frame c t req nonce m
    exact .of_flushing (by rw [hstore]) (by simp [hstore]) hflushing
  | finish t =>
    obtain ⟨req, pw, -, rfl⟩ := finish_cases hstep
    obtain ⟨hstore, hindex⟩ := finish_frame pw m.store
    exact .of_flushing hstore hindex rfl
  | take =>
    obtain ⟨muts, queue, -, -, rfl⟩ := take_cases hstep
    exact .of_flushing rfl (fun _ => id) rfl
  | applyTaken =>
    obtain ⟨muts, -, rfl⟩ := applyTaken_cases hstep
    exact .of_flushing rfl (fun _ => lookup_isSome_applyNow) rfl
  | flushDrain =>
    obtain ⟨-, rfl⟩ := flushDrain_cases hstep
    refine ⟨rfl, fun _ => id, fun fl ph hfl => .inl ⟨(drained_flush hfl).1, rfl⟩, ?_⟩
    intro fl cp hfl
    cases (drained_flush hfl).2
  | flushApply =>
    obtain ⟨fl, hfl, rfl⟩ := flushApply_cases hstep
    refine ⟨rfl, fun _ => lookup_isSome_applyNow, fun fl' ph hfl' => ?_, by simp⟩
    cases hfl'
    exact .inr ⟨⟨_, hfl⟩, rfl⟩
  | flushAbort =>
    obtain rfl := flushAbort_eq hstep
    exact ⟨rfl, fun _ => id, by simp, by simp⟩
  | relocateCheck r =>
    obtain rfl := some.inj hstep
    rw [relocateCheck_eq]
    exact .of_flushing rfl (fun _ => id) rfl
  | _ => simp [isQuiet] at ha

end Machine

/-! ### A small machine -/

namespace SampleMachine

/-- No compression and no encryption. -/
def codec : FrameCodec where
  zstdEncode := id
  zstdDecode := .ok
  meetsMinSavings := fun _ _ => false
  encryptFrame := fun _ _ frame => .ok frame
  decryptFrame := fun _ frame => .ok frame
  activeKey := none
  resolveNumeric := fun _ => .ok []

/-- A store on an empty disk. -/
def emptyStore : Store := (Store.newActiveSegment none 0 .data (.opening 1 4096 ∅ ∅ none)).2.2

def put (t : Thread) (data : List UInt8) : Action := .start t (.write (7, 1) data) fun _ => []

def delete (t : Thread) : Action := .start t (.delete (7, 1)) fun _ => []

/-- Thread 1 writes and thread 2 deletes; a flush runs before the two hand their locations over. -/
def flushedDelete : List Action :=
  [put 1 [5], .commit [1] 0, delete 2, .commit [2] 0, .flushDrain, .flushApply, .flushMark,
    .flushStore, .finish 2]

/-- Two threads write one extent; their writes are committed in one batch. -/
def bothPut (data data' : List UInt8) : List Action :=
  [put 1 data, put 2 data', .commit [1, 2] 0, .finish 1, .finish 2]

end SampleMachine

end Nufs.Storage
