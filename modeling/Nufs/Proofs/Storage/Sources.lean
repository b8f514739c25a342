/-
Where the locations of an extent come from.

A serving store holds locations in many places: the two parts of the overlay, the
index, the apply queue, what the apply loop has taken, and calls that are committed
but have not handed their location over.  A step moves locations between these
places, and only a commit, an append or a relocation brings new ones.  Whatever is
true of all published locations is therefore true of all locations a lookup can
ever return, and an extent that is known stays known.
-/
import Nufs.Proofs.Storage.Machine

namespace Nufs.Storage

open ByteFile List AList Option Store

namespace Machine

/-- The machine holds the location `v` for the extent somewhere. -/
inductive Holds (m : Machine) (k : Key) : Value → Prop
  | entries {v : Value} (h : m.store.overlay.entries.lookup k = some v) : Holds m k v
  | draining {v : Value} (h : m.store.overlay.draining.lookup k = some v) : Holds m k v
  | index {v : Value} (h : m.store.index.lookup k = some v) : Holds m k v
  | queued {muts : List Mutation} {v : Value} (h : muts ∈ m.store.applyCh) (hv : ⟨k, v⟩ ∈ muts) :
      Holds m k v
  | taken {muts : List Mutation} {v : Value} (h : m.taken = some muts) (hv : ⟨k, v⟩ ∈ muts) :
      Holds m k v
  | committed {t : Thread} {req : Request} {pw : PlacedWrite}
      (h : m.calls.lookup t = some (req, .committed pw)) (hk : pw.key = k) :
      Holds m k pw.published

variable {m m' : Machine} {k : Key} {v : Value} {new : Key → Value → Prop} {s : Store} {t : Thread}
  {req : Request} {result : Except Err Unit} {p : Progress} {owners : List (Thread × Request)}
  {placed : List PlacedWrite} {sum : UInt32} {c : FrameCodec} {a : Action}

/-- A lookup returns a location that is held. -/
theorem holds_of_lookup (h : m.store.lookup k = some v) : Holds m k v := by
  rw [lookup_eq, or_eq_some_iff, or_eq_some_iff] at h
  rcases h with (h | ⟨-, h⟩) | ⟨-, h⟩
  · exact .entries h
  · exact .draining h
  · exact .index h

/-- The bookkeeping of a machine is in order: every extent it holds a location of is known. -/
structure Sound (m : Machine) : Prop where
  flush : FlushOK m
  calls : CallsOK m
  known : ∀ k v, Holds m k v → (m.store.lookup k).isSome

/-- The locations of `m'` are locations of `m` or new and visible, and what is known stays
known. -/
structure Carries (m m' : Machine) (new : Key → Value → Prop) : Prop where
  flush : FlushOK m'
  held : ∀ k v, Holds m' k v → Holds m k v ∨ new k v ∧ (m'.store.lookup k).isSome
  known : ∀ k, (m.store.lookup k).isSome → (m'.store.lookup k).isSome

theorem Carries.sound (h : Carries m m' new) (hm : Sound m) (hcalls : CallsOK m') : Sound m' := by
  refine ⟨h.flush, hcalls, fun k v hv => ?_⟩
  rcases h.held k v hv with hold | ⟨-, hsome⟩
  · exact h.known k (hm.known k v hold)
  · exact hsome

variable {new' : Key → Value → Prop} {nonce : Nat → List UInt8} {now : UInt64}

theorem Carries.trans {m'' : Machine} (h : Carries m m' new) (h' : Carries m' m'' new')
    (hsub : ∀ k v, new' k v → new k v) : Carries m m'' new := by
  refine ⟨h'.flush, fun k v hv => ?_, fun k hk => h'.known k (h.known k hk)⟩
  rcases h'.held k v hv with hold | ⟨hnew, hsome⟩
  · exact (h.held k v hold).imp_right fun ⟨hnew, hsome⟩ => ⟨hnew, h'.known k hsome⟩
  · exact .inr ⟨hsub k v hnew, hsome⟩

theorem Carries.mono (h : Carries m m' new) (hsub : ∀ k v, new k v → new' k v) :
    Carries m m' new' :=
  ⟨h.flush, fun k v hv => (h.held k v hv).imp_right fun ⟨hnew, hsome⟩ => ⟨hsub k v hnew, hsome⟩,
    h.known⟩

/-- Nothing is new. -/
abbrev nothing : Key → Value → Prop := fun _ _ => False

/-! ### Steps that publish nothing -/

/-- No place that holds locations changes, and no call becomes committed. -/
theorem carries_frame (m' : Machine) (h : FlushOK m)
    (hoverlay : m'.store.overlay = m.store.overlay) (hindex : m'.store.index = m.store.index)
    (happly : m'.store.applyCh = m.store.applyCh) (htaken : m'.taken = m.taken)
    (hflushing : m'.flushing = m.flushing)
    (hcommitted : ∀ t req (pw : PlacedWrite), m'.calls.lookup t = some (req, .committed pw) →
      m.calls.lookup t = some (req, .committed pw)) : Carries m m' nothing := by
  refine ⟨h.of_frame (by rw [hoverlay]) hflushing (by simp [hindex]), fun k v hv => .inl ?_,
    fun k => ?_⟩
  · cases hv with
    | entries hk => exact .entries (by rwa [← hoverlay])
    | draining hk => exact .draining (by rwa [← hoverlay])
    | index hk => exact .index (by rwa [← hindex])
    | queued hq hx => exact .queued (by rwa [← happly]) hx
    | taken ht hx => exact .taken (by rwa [← htaken]) hx
    | committed ht hk => exact .committed (hcommitted _ _ _ ht) hk
  · rw [lookup_eq, lookup_eq, hoverlay, hindex]
    exact id

theorem carries_unseen (h : FlushOK m) (hs : Store.Unseen m.store s) :
    Carries m { m with store := s } nothing :=
  carries_frame _ h hs.overlay hs.toKept.index hs.toKept.applyCh rfl rfl fun _ _ _ => id

/-- Locations that are held are applied to the index. -/
theorem carries_apply {muts : List Mutation} (hmuts : ∀ x ∈ muts, Holds m x.key x.value)
    (hstore : m'.store = m.store.applyNow muts) (hcalls : m'.calls = m.calls)
    (hflush : FlushOK m') (htaken : ∀ taken, m'.taken = some taken → m.taken = some taken) :
    Carries m m' nothing := by
  refine ⟨hflush, fun k v hv => .inl ?_, fun k hk => ?_⟩
  · cases hv with
    | entries hk =>
      rw [hstore] at hk
      exact .entries hk
    | draining hk =>
      rw [hstore] at hk
      exact .draining hk
    | index hk =>
      rw [hstore] at hk
      rcases lookup_applyNow m.store.index muts k with ⟨-, heq⟩ | ⟨x, hx, rfl, heq⟩
      · exact .index (heq ▸ hk)
      · obtain rfl := some.inj (heq.symm.trans hk)
        exact hmuts x hx
    | queued hq hx =>
      rw [hstore] at hq
      exact .queued hq hx
    | taken ht hx => exact .taken (htaken _ ht) hx
    | committed ht hk => exact .committed (by rwa [← hcalls]) hk
  · rw [hstore]
    rw [lookup_eq, isSome_or, Bool.or_eq_true] at hk ⊢
    rcases hk with hk | hk
    · exact .inl hk
    · exact .inr (lookup_isSome_applyNow hk)

/-- The overlay changes in a flush. -/
theorem carries_overlay {flushing : Option (Flush × FlushPhase)}
    (hindex : s.index = m.store.index) (happly : s.applyCh = m.store.applyCh)
    (hentries : ∀ k v, s.overlay.entries.lookup k = some v → Holds m k v)
    (hdraining : ∀ k v, s.overlay.draining.lookup k = some v → Holds m k v)
    (hknown : ∀ k, (m.store.lookup k).isSome → (s.lookup k).isSome)
    (hflush : FlushOK { m with store := s, flushing := flushing }) :
    Carries m { m with store := s, flushing := flushing } nothing := by
  refine ⟨hflush, fun k v hv => .inl ?_, hknown⟩
  cases hv with
  | entries hk => exact hentries k v hk
  | draining hk => exact hdraining k v hk
  | index hk => exact .index (by rwa [← hindex])
  | queued hq hx => exact .queued (by rwa [← happly]) hx
  | taken ht hx => exact .taken ht hx
  | committed ht hk => exact .committed ht hk

theorem carries_drain (h : FlushOK m) (hnone : m.flushing = none) : Carries m { m with
      store := m.store.flushDrain.2
      flushing := m.store.flushDrain.1.map fun fl => (fl, .drained) } nothing := by
  refine carries_overlay rfl rfl ?_ ?_ ?_ (h.drain hnone)
  · intro k v hv
    simp [Store.flushDrain] at hv
  · intro k v hv
    have hv' : (m.store.overlay.entries ∪ m.store.overlay.draining).lookup k = some v := hv
    rw [lookup_union, or_eq_some_iff] at hv'
    rcases hv' with hv' | ⟨-, hv'⟩
    · exact .entries hv'
    · exact .draining hv'
  · intro k hk
    simpa [lookup_eq, Store.flushDrain, lookup_union] using hk

theorem carries_abort (hs : Store.Unseen m.store s) :
    Carries m { m with store := s.flushAbort, flushing := none } nothing := by
  refine carries_overlay hs.toKept.index hs.toKept.applyCh ?_ ?_ ?_ (.ended rfl)
  · intro k v hv
    have hv' : (s.overlay.entries ∪ s.overlay.draining).lookup k = some v := hv
    rw [hs.overlay, lookup_union, or_eq_some_iff] at hv'
    rcases hv' with hv' | ⟨-, hv'⟩
    · exact .entries hv'
    · exact .draining hv'
  · intro k v hv
    simp [Store.flushAbort] at hv
  · intro k hk
    simpa [lookup_eq, Store.flushAbort, lookup_union, hs.overlay, hs.toKept.index] using hk

/-- A flush ends: the index has what was draining. -/
theorem carries_discard (h : FlushOK m) {fl : Flush} {ph : FlushPhase}
    (hfl : m.flushing = some (fl, ph)) (hph : ph ≠ .drained)
    (hoverlay : s.overlay = m.store.overlay.discardDrained) (hindex : s.index = m.store.index)
    (happly : s.applyCh = m.store.applyCh) :
    Carries m { m with store := s, flushing := none } nothing := by
  refine carries_overlay hindex happly ?_ ?_ ?_ (.ended (by rw [hoverlay]; rfl))
  · intro k v hv
    rw [hoverlay] at hv
    exact .entries hv
  · intro k v hv
    simp [hoverlay] at hv
  intro k hk
  rw [lookup_eq, isSome_or, isSome_or] at hk ⊢
  rw [hoverlay, hindex, Overlay.entries_discardDrained]
  by_cases hdraining : (m.store.overlay.draining.lookup k).isSome = true
  · rw [h.applied fl ph hfl hph k hdraining, Bool.or_true]
  · simp only [Bool.not_eq_true] at hdraining
    simpa [hdraining] using hk

/-- A held location is handed to the queue, or applied at once since the queue is full. -/
theorem carries_enqueue (h : FlushOK { m with store := s }) {x : Mutation}
    (hx : Holds { m with store := s } x.key x.value) :
    Carries { m with store := s } { m with store := s.enqueueApply [x] } nothing := by
  rcases s.enqueueApply_cases [x] with ⟨-, heq⟩ | ⟨-, heq⟩ <;> rw [heq]
  · refine ⟨h.of_frame rfl rfl fun _ => id, fun k v hv => .inl ?_, fun _ => id⟩
    cases hv with
    | entries hk => exact .entries hk
    | draining hk => exact .draining hk
    | index hk => exact .index hk
    | queued hq hv =>
      rcases mem_append.mp hq with hold | hnew
      · exact .queued hold hv
      · obtain rfl := mem_singleton.mp hnew
        obtain rfl := mem_singleton.mp hv
        exact hx
    | taken ht hv => exact .taken ht hv
    | committed ht hk => exact .committed ht hk
  · exact carries_apply (by simpa using hx) rfl rfl
      (h.of_frame rfl rfl fun _ => lookup_isSome_applyNow) fun _ => id

/-! ### Steps that publish -/

section

variable (h : FlushOK m) (relocating : List Reloc) (hindex : s.index = m.store.index)
  (happly : s.applyCh = m.store.applyCh)
include h hindex happly

/-- Locations are put into the overlay. -/
theorem carries_publish
    (hdraining : s.overlay.draining = m.store.overlay.draining)
    (hentries : ∀ k, s.overlay.entries.lookup k = m.store.overlay.entries.lookup k ∨
      ∃ v, s.overlay.entries.lookup k = some v ∧ new k v) :
    Carries m { m with store := s, relocating := relocating } new := by
  refine ⟨h.of_frame hdraining rfl (by simp [hindex]), fun k v hv => ?_, fun k hk => ?_⟩
  · cases hv with
    | entries hk =>
      rcases hentries k with hsame | ⟨v', hv', hnew'⟩
      · exact .inl (.entries (by rwa [← hsame]))
      · obtain rfl := some.inj (hk.symm.trans hv')
        refine .inr ⟨hnew', ?_⟩
        rw [lookup_eq, hk]
        rfl
    | draining hk => exact .inl (.draining (by rwa [← hdraining]))
    | index hk => exact .inl (.index (by rwa [← hindex]))
    | queued hq hx => exact .inl (.queued (by rwa [← happly]) hx)
    | taken ht hx => exact .inl (.taken ht hx)
    | committed ht hk => exact .inl (.committed ht hk)
  · rw [lookup_eq, isSome_or, isSome_or] at hk ⊢
    rw [hindex, hdraining]
    rcases hentries k with hsame | ⟨v, hv, -⟩
    · rwa [hsame]
    · simp [hv]

/-- One location is published. -/
theorem carries_put
    (hoverlay : s.overlay = m.store.overlay.put k v) :
    Carries m { m with store := s, relocating := relocating } fun k' v' => k' = k ∧ v' = v := by
  refine carries_publish h relocating hindex happly (by rw [hoverlay]; rfl) fun k' => ?_
  rw [hoverlay, Overlay.entries_put]
  by_cases hk : k' = k
  · subst hk
    exact .inr ⟨v, lookup_insert _, rfl, rfl⟩
  · exact .inl (lookup_insert_ne hk)

end

/-! ### Calls -/

/-- A call that returned is all that changes. -/
theorem lookup_ret {t' : Thread} {req' : Request}
    (h : (m.ret t req result).calls.lookup t' = some (req', p)) :
    m.calls.lookup t' = some (req', p) ∨ p = .returned result := by
  unfold ret at h
  by_cases ht : t' = t
  · subst ht
    simp only [lookup_insert, some.injEq, Prod.mk.injEq] at h
    exact .inr h.2.symm
  · simp only [lookup_insert_ne ht] at h
    exact .inl h

theorem lookup_retAll (h : (retAll result owners m).calls.lookup t = some (req, p)) :
    m.calls.lookup t = some (req, p) ∨ p = .returned result := by
  induction owners generalizing m with
  | nil => exact .inl h
  | cons o owners ih =>
    rcases ih h with hold | hret
    · exact lookup_ret hold
    · exact .inr hret

theorem lookup_commitAll (h : (commitAll owners placed m).calls.lookup t = some (req, p)) :
    m.calls.lookup t = some (req, p) ∨ ∃ pw ∈ placed, p = .committed pw := by
  induction owners generalizing m placed with
  | nil => cases placed <;> exact .inl h
  | cons o owners ih =>
    cases placed with
    | nil => exact .inl h
    | cons pw placed =>
      rcases ih h with hold | ⟨pw', hpw', hp⟩
      · by_cases ht : t = o.1
        · subst ht
          simp only [lookup_insert, some.injEq, Prod.mk.injEq] at hold
          exact .inr ⟨pw, by simp, hold.2.symm⟩
        · simp only [lookup_insert_ne ht] at hold
          exact .inl hold
      · exact .inr ⟨pw', by simp [hpw'], hp⟩

/-- A successful `Write` is the only call whose return acknowledges a checksum. -/
theorem acked_mem_returnEvents (h : .acked k sum ∈ returnEvents req result) :
    result = .ok () ∧ ∃ data, req = .write k data ∧ sum = crc32c data := by
  cases req with
  | delete k' => cases result <;> simp [returnEvents] at h
  | write k' data =>
    cases result with
    | error e => simp [returnEvents] at h
    | ok u =>
      obtain ⟨rfl, rfl⟩ : k = k' ∧ sum = crc32c data := by simpa [returnEvents] using h
      exact ⟨rfl, data, rfl, rfl⟩

theorem acked_retAll {e : Err} (h : .acked k sum ∈ (retAll (.error e) owners m).log) :
    .acked k sum ∈ m.log := by
  induction owners generalizing m with
  | nil => exact h
  | cons o owners ih =>
    rcases mem_append.mp (ih h) with hev | hold
    · exact absurd (acked_mem_returnEvents hev).1 (by simp)
    · exact hold

theorem acked_logCommitted {log : List Event} (h : .acked k sum ∈ logCommitted log placed) :
    .acked k sum ∈ log := by
  induction placed generalizing log with
  | nil => exact h
  | cons pw placed ih => simpa using ih h

theorem log_retAll (result : Except Err Unit) (owners : List (Thread × Request)) (m : Machine) :
    m.log ⊆ (retAll result owners m).log := by
  induction owners generalizing m with
  | nil => exact .refl _
  | cons o owners ih =>
    exact List.Subset.trans (subset_append_right _ _) (ih (m.ret o.1 o.2 result))

theorem log_logCommitted (log : List Event) (placed : List PlacedWrite) :
    log ⊆ logCommitted log placed := by
  induction placed generalizing log with
  | nil => exact .refl _
  | cons pw placed ih => exact List.Subset.trans (subset_cons_self _ _) (ih _)

theorem mem_logCommitted {pw : PlacedWrite} (h : pw ∈ placed) (log : List Event) :
    .committed pw.key pw.header.op ∈ logCommitted log placed := by
  induction placed generalizing log with
  | nil => simp at h
  | cons pw' placed ih =>
    rcases mem_cons.mp h with rfl | h
    · exact log_logCommitted _ placed mem_cons_self
    · exact ih h _

/-! ### Every step -/

/-- What a step publishes. -/
def Published (m : Machine) : Action → Key → Value → Prop
  | .commit ts now, k, v => ∃ batch placed s, ts.mapM m.submitted = some batch ∧
      Store.commitBatch none now (batch.map Prod.snd) m.store = (.ok placed, s) ∧
      ∃ pw ∈ placed, pw.key = k ∧ pw.published = v
  | .append k' data _ _ _, k, v => k = k' ∧ v.state = .durable ∧ v.checksum = crc32c data
  | .relocatePut r, k, v => k = r.key ∧ v = r.value
  | _, _, _ => False

/-- How a call that waits for its batch was started. -/
def Started (c : FrameCodec) (m : Machine) (a : Action) (t : Thread) (req : Request)
    (pw : PendingWrite) : Prop :=
  ∃ nonce, a = .start t req nonce ∧
    match req with
    | .write k data => m.store.lookup k = none ∧ Store.buildWrite c nonce k data = .ok pw
    | .delete k => ∃ v, m.store.lookup k = some v ∧ pw = Store.deletePending k v

/-- **What a step does to locations and promises.** -/
structure Moves (c : FrameCodec) (m : Machine) (a : Action) (m' : Machine) : Prop where
  carries : Carries m m' (Published m a)
  calls : CallsOK m'
  submitted : ∀ t req pw, m'.calls.lookup t = some (req, .submitted pw) →
    m.calls.lookup t = some (req, .submitted pw) ∨ Started c m a t req pw
  acked : ∀ k sum, .acked k sum ∈ m'.log →
    .acked k sum ∈ m.log ∨ ∃ v, Holds m k v ∧ v.checksum = sum
  log : m.log ⊆ m'.log

/-- A step that only changes the store. -/
theorem Moves.of_carries (hcarries : Carries m m' (Published m a)) (hok : CallsOK m)
    (hcalls : m'.calls = m.calls) (hlog : m'.log = m.log) : Moves c m a m' := by
  refine ⟨hcarries, ⟨?_, ?_⟩, ?_, ?_, by rw [hlog]; exact .refl _⟩
  · rw [hcalls]
    exact hok.submitted
  · rw [hcalls]
    exact hok.committed
  · intro t req pw h
    exact .inl (by rwa [← hcalls])
  · intro k sum h
    exact .inl (by rwa [← hlog])

section

variable (hm : Sound m)
include hm

/-- A call returns at once; if it is a write that succeeds, its checksum is known. -/
theorem Moves.ret (t : Thread) (req : Request) (result : Except Err Unit)
    (hack : ∀ k data, req = .write k data → result = .ok () →
      ∃ v, Holds m k v ∧ v.checksum = crc32c data) : Moves c m a (m.ret t req result) := by
  refine ⟨?_, hm.calls.ret t req result, ?_, ?_, subset_append_right _ _⟩
  · have hcommitted : ∀ t' req' (pw : PlacedWrite),
        (m.ret t req result).calls.lookup t' = some (req', .committed pw) →
          m.calls.lookup t' = some (req', .committed pw) :=
      fun t' req' pw h => (lookup_ret h).resolve_right (by simp)
    exact (carries_frame (m.ret t req result) hm.flush rfl rfl rfl rfl rfl hcommitted).mono
      fun _ _ => False.elim
  · intro t' req' pw h
    exact .inl ((lookup_ret h).resolve_right (by simp))
  · intro k sum h
    rcases mem_append.mp h with hev | hold
    · obtain ⟨hok, data, hreq, rfl⟩ := acked_mem_returnEvents hev
      exact .inr (hack k data hreq hok)
    · exact .inl hold

/-- A call is submitted. -/
theorem Moves.submit {pw : PendingWrite} (hmatch : Matches req pw)
    (hstart : Started c m (.start t req nonce) t req pw) :
    Moves c m (.start t req nonce) { m with calls := m.calls.insert t (req, .submitted pw) } := by
  refine ⟨?_, ?_, ?_, fun k sum h => .inl h, .refl _⟩
  · refine carries_frame _ hm.flush rfl rfl rfl rfl rfl fun t' req' pw' h => ?_
    by_cases ht : t' = t
    · subst ht
      simp at h
    · simpa only [lookup_insert_ne ht] using h
  · refine hm.calls.insert t req _ ?_ (by simp) _ _ _ _ _
    intro pw' heq
    obtain rfl := Progress.submitted.inj heq
    exact hmatch
  intro t' req' pw' h
  by_cases ht : t' = t
  · subst ht
    simp only [lookup_insert, some.injEq, Prod.mk.injEq, Progress.submitted.injEq] at h
    obtain ⟨rfl, rfl⟩ := h
    exact .inr hstart
  · exact .inl (by simpa only [lookup_insert_ne ht] using h)

theorem moves_start (c : FrameCodec) (t : Thread) (req : Request)
    (nonce : Nat → List UInt8) : Moves c m (.start t req nonce) (m.start c t req nonce) := by
  cases req with
  | write k data =>
    unfold Machine.start
    dsimp only
    split
    · rename_i r hlook
      refine .ret hm t _ _ ?_
      rintro k' data' heq -
      obtain ⟨rfl, rfl⟩ := Request.write.inj heq
      -- The idempotent path: the extent is known with this checksum.
      unfold Store.writeLookup at hlook
      split at hlook
      · simp at hlook
      · rename_i v hv
        split_ifs at hlook with hsum
        · exact ⟨v, holds_of_lookup hv, hsum⟩
        · simp at hlook
    · exact .ret hm t _ _ (by simp)
    · rename_i hlook
      split
      · exact .ret hm t _ _ (by simp)
      rename_i pw hbuild
      refine .submit hm (buildWrite_matches hbuild) ⟨nonce, rfl, ?_, hbuild⟩
      unfold Store.writeLookup at hlook
      split at hlook
      · assumption
      · simp at hlook
  | delete k =>
    unfold Machine.start
    dsimp only
    split
    · -- The event is noted, then the call returns.
      have hnote : Carries m { m with log := .notFound k :: m.log } nothing :=
        carries_frame _ hm.flush rfl rfl rfl rfl rfl fun _ _ _ => id
      have hm' := hnote.sound hm (hm.calls.congr rfl)
      have hret : Moves c { m with log := .notFound k :: m.log } (.start t (.delete k) nonce) _ :=
        .ret hm' t (.delete k) (.ok ()) (by simp)
      refine ⟨?_, hret.calls, fun t' req' pw h => ?_, fun k' sum h => ?_,
        fun e he => hret.log (.tail _ he)⟩
      · exact hnote.trans hret.carries fun _ _ => id
      · exact .inl ((lookup_ret h).resolve_right (by simp))
      · rcases mem_append.mp h with hev | hold
        · exact absurd (acked_mem_returnEvents hev).2 (by simp)
        · exact .inl (by simpa using hold)
    · rename_i v hlook
      exact .submit hm ⟨v, rfl⟩ ⟨nonce, rfl, v, hlook, rfl⟩

theorem moves_commit {ts : List Thread} (hstep : m.commit ts now = some m') :
    Moves c m (.commit ts now) m' := by
  obtain ⟨-, -, batch, hbatch, ⟨e, s, -, hunseen, rfl⟩ | ⟨placed, s, hcommit, hplaced, hkept,
    hoverlay, hmatch, rfl⟩⟩ := commit_cases hstep hm.calls
  · set owners := ts.zip (batch.map Prod.fst)
    have hstore : Carries m { m with store := s } nothing := carries_unseen hm.flush hunseen
    have hcalls : Carries { m with store := s } (retAll (.error e) owners { m with store := s })
        nothing := by
      have hcommitted : ∀ t' req' (pw : PlacedWrite),
          (retAll (.error e) owners { m with store := s }).calls.lookup t' =
              some (req', .committed pw) →
            m.calls.lookup t' = some (req', .committed pw) :=
        fun t' req' pw h => (lookup_retAll h).resolve_right (by simp)
      rw [retAll_eq] at hcommitted ⊢
      exact carries_frame _ hstore.flush rfl rfl rfl rfl rfl hcommitted
    refine ⟨(hstore.trans hcalls fun _ _ => id).mono fun _ _ => False.elim, ?_, ?_, ?_,
      log_retAll _ _ { m with store := s }⟩
    · exact .retAll (m := { m with store := s }) (hm.calls.congr rfl) _ _
    · exact fun t req pw h => .inl ((lookup_retAll h).resolve_right (by simp))
    · exact fun k sum h => .inl (acked_retAll (m := { m with store := s }) h)
  · -- First the locations are published, then the calls go on.
    set owners := ts.zip (batch.map Prod.fst)
    have hpublish : Carries m { m with store := s } (Published m (.commit ts now)) := by
      refine carries_publish hm.flush m.relocating hkept.index hkept.applyCh ?_ fun k => ?_
      · rw [hoverlay, draining_putPlaced]
      · rw [hoverlay]
        rcases lookup_putPlaced m.store.overlay placed k with ⟨-, heq⟩ | ⟨pw, hpw, rfl, heq⟩
        · exact .inl heq
        · exact .inr ⟨pw.published, heq, batch, placed, s, hbatch, hcommit, pw, hpw, rfl, rfl⟩
    have hcalls : Carries { m with store := s } (commitAll owners placed { m with store := s })
        (Published m (.commit ts now)) := by
      have hheld : ∀ t req (pw : PlacedWrite),
          (commitAll owners placed { m with store := s }).calls.lookup t =
              some (req, .committed pw) →
            m.calls.lookup t = some (req, .committed pw) ∨ pw ∈ placed := by
        intro t req pw h
        rcases lookup_commitAll h with hold | ⟨pw', hpw', hp⟩
        · exact .inl hold
        · obtain rfl := Progress.committed.inj hp
          exact .inr hpw'
      rw [commitAll_eq] at hheld ⊢
      refine ⟨hpublish.flush.of_frame rfl rfl fun _ => id, fun k v hv => ?_, fun _ => id⟩
      cases hv with
      | entries hk => exact .inl (.entries hk)
      | draining hk => exact .inl (.draining hk)
      | index hk => exact .inl (.index hk)
      | queued hq hx => exact .inl (.queued hq hx)
      | taken ht hx => exact .inl (.taken ht hx)
      | @committed t req pw ht hk =>
        rcases hheld t req pw ht with hold | hpw
        · exact .inl (.committed hold hk)
        refine .inr ⟨⟨batch, placed, s, hbatch, hcommit, pw, hpw, hk, rfl⟩, ?_⟩
        subst hk
        rcases lookup_putPlaced m.store.overlay placed pw.key with ⟨hnone, -⟩ | ⟨_, -, -, heq⟩
        · exact absurd rfl (hnone pw hpw)
        · rw [lookup_eq, hoverlay, heq]
          rfl
    have hlog : m.log ⊆ (commitAll owners placed { m with store := s }).log := by
      rw [commitAll_log hmatch.length_eq]
      exact log_logCommitted m.log placed
    refine ⟨hpublish.trans hcalls fun _ _ => id, ?_, ?_, ?_, hlog⟩
    · exact .commitAll hmatch (hm.calls.congr rfl)
    · intro t req pw h
      rcases lookup_commitAll h with hold | ⟨pw', -, hp⟩
      · exact .inl hold
      · simp at hp
    · intro k sum h
      rw [commitAll_log hmatch.length_eq] at h
      exact .inl (acked_logCommitted h)

theorem moves_finish (hstep : m.finish t = some m') : Moves c m (.finish t) m' := by
  unfold Machine.finish at hstep
  split at hstep
  · rename_i req pw hlook
    cases hstep
    have hheld : Holds m pw.key pw.published := .committed hlook rfl
    have hstore : Carries m { m with store := m.store.finish pw } nothing := by
      unfold Store.finish
      unfold PlacedWrite.published at hheld
      split <;> rename_i hvalue <;> rw [hvalue] at hheld
      · exact carries_enqueue (m := m) hm.flush (x := ⟨pw.key, pw.location .durable⟩) hheld
      rename_i v
      have hcache : Carries m { m with
          store := { m.store with locCache := m.store.locCache.insert pw.key v } } nothing :=
        carries_frame _ hm.flush rfl rfl rfl rfl rfl fun _ _ _ => id
      have hheld' : Holds { m with
          store := { m.store with locCache := m.store.locCache.insert pw.key v } } pw.key
          pw.published := .committed hlook rfl
      unfold PlacedWrite.published at hheld'
      rw [hvalue] at hheld'
      exact hcache.trans (carries_enqueue (m := m) hcache.flush (x := ⟨pw.key, v⟩) hheld')
        fun _ _ => id
    have hm' : Sound { m with store := m.store.finish pw } :=
      hstore.sound hm (hm.calls.congr rfl)
    have hret : Moves c { m with store := m.store.finish pw } (.finish t)
        ({ m with store := m.store.finish pw }.ret t req (.ok ())) := by
      refine .ret hm' t req _ ?_
      rintro k data rfl -
      -- The checksum of the committed record is the one of the request.
      obtain ⟨hkey, -, hvalue, hsum⟩ := hm.calls.committed t _ pw hlook
      refine ⟨pw.published, .committed hlook hkey, ?_⟩
      unfold PlacedWrite.published
      rw [hvalue]
      exact hsum
    refine ⟨hstore.trans hret.carries fun _ _ => id, hret.calls, ?_, ?_, hret.log⟩
    · intro t' req' pw' h
      exact .inl ((lookup_ret h).resolve_right (by simp))
    · intro k sum h
      rcases hret.acked k sum h with hold | ⟨v, hv, hsum⟩
      · exact .inl hold
      · exact .inr ⟨v, (hstore.held k v hv).resolve_right (by simp), hsum⟩
  · simp at hstep

theorem moves_append {data : List UInt8} {codec : CompressionCodec}
    (hstep : m.append c k data codec nonce now = some m') :
    Moves c m (.append k data codec nonce now) m' := by
  obtain ⟨-, rfl | ⟨pw, rfl, hsum, rfl⟩⟩ := append_cases hstep
  · exact .of_carries ((carries_unseen hm.flush (.refl _)).mono fun _ _ => False.elim) hm.calls rfl
      rfl
  refine .of_carries ?_ hm.calls rfl rfl
  rcases appendRecord_cases now pw m.store with hunseen | ⟨placed, rfl, s1, s2, hkept,
    hput, rfl, hunseen⟩
  · exact (carries_unseen hm.flush hunseen).mono fun _ _ => False.elim
  have h1 : Carries m { m with store := s1 } _ :=
    carries_put hm.flush m.relocating hkept.index hkept.applyCh hput
  have hx : Holds { m with store := s1 } placed.key (placed.location .durable) :=
    .entries (by rw [hput, Overlay.entries_put, lookup_insert])
  have h2 : Carries { m with store := s1 } _ nothing :=
    carries_enqueue (m := m) h1.flush (x := ⟨placed.key, placed.location .durable⟩) hx
  have h3 := carries_unseen (m := { m with store := s1.enqueueApply _ }) h2.flush hunseen
  refine ((h1.trans h2 fun _ _ => False.elim).trans h3 fun _ _ => False.elim).mono ?_
  rintro k v ⟨rfl, rfl⟩
  exact ⟨rfl, rfl, hsum⟩

/-- **Every step** keeps the bookkeeping in order and brings only what it publishes. -/
theorem step_moves (hstep : step c m a = some m') : Moves c m a m' := by
  cases a with
  | start t req nonce =>
    obtain rfl := start_eq hstep
    exact moves_start hm c t req nonce
  | commit ts now => exact moves_commit hm hstep
  | finish t => exact moves_finish hm hstep
  | take =>
    obtain ⟨muts, queue, -, hqueue, rfl⟩ := take_cases hstep
    refine .of_carries ⟨hm.flush.of_frame rfl rfl fun _ => id, fun k v hv => .inl ?_,
      fun _ => id⟩ hm.calls rfl rfl
    cases hv with
    | entries hk => exact .entries hk
    | draining hk => exact .draining hk
    | index hk => exact .index hk
    | queued hq hx => exact .queued (by rw [hqueue]; exact .tail _ hq) hx
    | taken ht hx =>
      cases ht
      exact .queued (by rw [hqueue]; exact (.head _)) hx
    | committed ht hk => exact .committed ht hk
  | applyTaken =>
    obtain ⟨muts, hmuts, rfl⟩ := applyTaken_cases hstep
    exact .of_carries (carries_apply (fun x hx => .taken hmuts hx) rfl rfl
      (hm.flush.of_frame rfl rfl fun _ => lookup_isSome_applyNow) (by simp)) hm.calls rfl rfl
  | flushDrain =>
    obtain ⟨hnone, rfl⟩ := flushDrain_cases hstep
    exact .of_carries (carries_drain hm.flush hnone) hm.calls rfl rfl
  | flushApply =>
    obtain ⟨fl, hfl, rfl⟩ := flushApply_cases hstep
    refine .of_carries (carries_apply (fun x hx => .draining ?_) rfl rfl
      (hm.flush.flushApply hfl) fun _ => id) hm.calls rfl rfl
    exact (hm.flush.muts fl _ hfl x.key x.value).mpr hx
  | flushMark =>
    obtain ⟨fl, hfl, hmark⟩ := flushMark_cases hstep
    have hs := writeIndexSafeLocked_unseen none fl.safe m.store
    rcases hmark with ⟨e, -, rfl⟩ | ⟨cp, -, rfl⟩
    · exact .of_carries (carries_abort hs) hm.calls rfl rfl
    have hflush := hm.flush.marked hfl hs cp
    refine .of_carries (carries_overlay hs.toKept.index hs.toKept.applyCh ?_ ?_ ?_ hflush)
      hm.calls rfl rfl
    · exact fun k v hv => .entries (by rwa [← hs.overlay])
    · exact fun k v hv => .draining (by rwa [← hs.overlay])
    · intro k hk
      rw [lookup_eq, hs.overlay, hs.toKept.index]
      exact hk
  | flushStore =>
    obtain ⟨fl, cp, hfl, rfl | ⟨-, rfl⟩⟩ := flushStore_cases hstep
    · exact .of_carries (carries_abort (.refl _)) hm.calls rfl rfl
    · exact .of_carries (carries_discard hm.flush hfl (by simp) rfl rfl rfl) hm.calls rfl rfl
  | flushAbort =>
    obtain rfl := flushAbort_eq hstep
    exact .of_carries (carries_abort (.refl _)) hm.calls rfl rfl
  | append k data codec nonce now => exact moves_append hm hstep
  | relocateCheck r =>
    cases hstep
    rw [relocateCheck_eq]
    exact .of_carries (carries_frame _ hm.flush rfl rfl rfl rfl rfl fun _ _ _ => id)
      hm.calls rfl rfl
  | relocatePut r =>
    obtain rfl := relocatePut_eq hstep
    have hput : Carries m _ (Published m (.relocatePut r)) :=
      carries_put hm.flush (m.relocating.erase r) (s := { m.store with
          overlay := m.store.overlay.put r.key r.value
          locCache := m.store.locCache.erase r.key }) rfl rfl rfl
    exact .of_carries hput hm.calls rfl rfl

end

theorem sound_init (hdraining : s.overlay.draining = ∅) (hqueue : s.applyCh = []) :
    Sound (init s) := by
  refine ⟨.ended (m := init s) hdraining, ⟨by simp [init], by simp [init]⟩, ?_⟩
  intro k v hv
  rw [lookup_eq, isSome_or, isSome_or]
  cases hv with
  | entries hk | draining hk | index hk => simp [hk]
  | queued hq hx => simp [init, hqueue] at hq
  | taken ht hx | committed ht hk => simp [init] at ht

/-- In a machine with nothing in flight only the index holds anything. -/
theorem holds_init (hoverlay : s.overlay = .empty) (hqueue : s.applyCh = [])
    (h : Holds (init s) k v) : s.index.lookup k = some v := by
  cases h with
  | entries hk | draining hk => simp [init, hoverlay, Overlay.empty] at hk
  | index hk => exact hk
  | queued hq hx => simp [init, hqueue] at hq
  | taken ht hx | committed ht hk => simp [init] at ht

end Machine

end Nufs.Storage
