/-
Durability across rotations and crashes.

Recovery reads the segment with the highest number only; it trusts the index for all
older ones.  A rotation does not wait until the index has the locations of the segment
it seals, so an acknowledged write is lost if the store crashes before its location
was applied.  Where every crash finds the locations of older segments in the index,
every acknowledged write of an extent that is not deleted is found again.

The proof follows a node through its life.  While it serves, each location of such an
extent is in the index or its record stands behind the checkpoint, or it is one of
the locations a crash would lose; when it is cut off, the same holds of what is on
disk; and `New` puts all of it into the index again.
-/
import Nufs.Storage.Node
import Nufs.Proofs.Storage.Fenced
import Nufs.Proofs.Storage.Framing
import Nufs.Proofs.Storage.Logging

namespace Nufs.Storage

open ByteFile Store List Option

/-! ### What a crash finds -/

variable {segID : SegmentID} {off : Nat} {d : CommitDescriptor} {cfg : Config} {s : Store}
  {keep : SegmentID → Nat}

theorem segmentID_of_mem_records {rs : List FramedRecord}
    (h : d ∈ recordsDescriptors segID off rs) : d.segmentID = segID := by
  induction rs generalizing off with
  | nil => simp [recordsDescriptors] at h
  | cons r rs ih =>
    rcases mem_cons.mp h with rfl | h
    · rfl
    · exact ih h

theorem segmentID_of_mem_log {streamID : UInt8} {es : List LogEntry}
    (h : d ∈ logDescriptors segID streamID off es) : d.segmentID = segID := by
  induction es generalizing off with
  | nil => simp [logDescriptors] at h
  | cons e es ih =>
    rw [logDescriptors, mem_append] at h
    rcases h with h | h
    · cases e with
      | batch b => exact segmentID_of_mem_records h
      | marker m hop => simp [LogEntry.descriptors] at h
    · exact ih h

/--
What a store that was cut off has of the extents nobody deleted.  `all` are the
records of its highest segment, `live` those of them that recovery will replay.
-/
structure Recorded (log : List Event) (s : Store) (h : SegmentID)
    (all live : List CommitDescriptor) : Prop where
  values : ∀ k v, ¬ deleteCommitted log k → s.index.lookup k = some v →
    v.state = .durable ∧ v.segmentID ≤ h
  records : ∀ d ∈ all, ¬ deleteCommitted log d.key → d.op = .put
  checksums : ∀ k sum, ¬ deleteCommitted log k → .acked k sum ∈ log →
    (∀ v, s.index.lookup k = some v → v.checksum = sum) ∧ ∀ d ∈ all, d.key = k → d.checksum = sum
  present : ∀ k sum, ¬ deleteCommitted log k → .acked k sum ∈ log →
    (s.index.lookup k).isSome ∨ (∃ d ∈ live, d.key = k) ∨
      ∃ v, s.overlay.get k = some v ∧ v.state = .durable ∧ v.segmentID ≠ h

/-- What `New` has of them again. -/
structure Restored (cfg : Config) (log : List Event) (s : Store) : Prop where
  opened : ∃ h index seq, Opened cfg h index seq s ∧ seq.toNat < seqBound
  values : ∀ k v, ¬ deleteCommitted log k → s.index.lookup k = some v →
    v.state = .durable ∧ v.segmentID < s.alloc.segmentID
  acked : ∀ k sum, ¬ deleteCommitted log k → .acked k sum ∈ log →
    ∃ v, s.index.lookup k = some v ∧ v.checksum = sum

/-- A crash that loses nothing: locations of older segments are in the index, and recovery can
read the highest one. -/
def SafeCrash (cfg : Config) (s : Store) (keep : SegmentID → Nat) : Prop :=
  (∀ k v, s.overlay.get k = some v → v.state = .durable →
      (s.index.lookup k).isSome ∨ v.segmentID = maxSegmentID s.files) ∧
    s.alloc.recordCount ≤ cfg.recordLimit ∧
    Recoverable cfg ⟨s.files.crash keep, s.index, s.checkpoint⟩

theorem safeCrash_iff : SafeCrash cfg s keep ↔
      (∀ k ∈ s.overlay.entries.keys ++ s.overlay.draining.keys, ∀ v, s.overlay.get k = some v →
          v.state = .durable → (s.index.lookup k).isSome ∨ v.segmentID = maxSegmentID s.files) ∧
        s.alloc.recordCount ≤ cfg.recordLimit ∧
        Recoverable cfg ⟨s.files.crash keep, s.index, s.checkpoint⟩ := by
  refine and_congr_left fun _ => ⟨fun h k _ => h k, fun h k v hv => h k ?_ v hv⟩
  rw [mem_append, ← AList.mem_keys, ← AList.mem_keys, ← AList.lookup_isSome, ← AList.lookup_isSome]
  rcases or_eq_some_iff.mp hv with he | ⟨-, hd⟩
  · exact .inl (by simp [he])
  · exact .inr (by simp [hd])

instance (cfg : Config) (s : Store) (keep : SegmentID → Nat) : Decidable (SafeCrash cfg s keep) :=
  have : Decidable (∀ k ∈ s.overlay.entries.keys ++ s.overlay.draining.keys, ∀ v,
      s.overlay.get k = some v → v.state = .durable →
        (s.index.lookup k).isSome ∨ v.segmentID = maxSegmentID s.files) :=
    List.decidableBAll _ _
  decidable_of_iff' _ safeCrash_iff

/-- What is replayed goes to the index. -/
theorem lookup_replayed (index : Index) {ds : List CommitDescriptor} {k : Key}
    (hput : ∀ d ∈ ds, d.key = k → d.op = .put) : ((∀ d ∈ ds, d.key ≠ k) ∧
        (index.applyNow (ds.foldl CommitDescriptor.applyTo .empty).drained).lookup k =
          index.lookup k) ∨
      ∃ d ∈ ds, d.key = k ∧
        (index.applyNow (ds.foldl CommitDescriptor.applyTo .empty).drained).lookup k =
          some (d.value .durable) := by
  rw [lookup_applyNow_drained]
  rcases lookup_applyTo hput .empty with ⟨hnone, hlook⟩ | ⟨d, hd, hkey, hlook⟩
  · exact .inl ⟨hnone, by rw [hlook]; rfl⟩
  · exact .inr ⟨d, hd, hkey, by rw [hlook, Option.some_or]⟩

/-- **A crash and `New`** restore what was recorded. -/
theorem Recorded.reopen {log : List Event} {h : SegmentID} {segmentClass : SegmentClass}
    {file : File} {before after rest : List LogEntry} {tail : List UInt8} {q : UInt64}
    {live : List CommitDescriptor} (ht : TornLog cfg s h segmentClass file before after rest tail q)
    (hlive : live = logDescriptors h s.streamID
      (segmentBytes s.streamID h segmentClass before).length after)
    (hr : Recorded log s h (segmentDescriptors s.streamID h (before ++ after ++ rest)) live)
    (hsafe : SafeCrash cfg s keep) {clock : RecoveryClock} (hclock : clock.Quiet) (now : UInt64) :
    ∃ s', Store.new cfg clock now ⟨s.files.crash keep, s.index, s.checkpoint⟩ = .ok s' ∧
      Restored cfg log s' := by
  obtain ⟨hcovered, hcount, hdisk⟩ := hsafe
  rw [ht.highest.maxSegmentID_eq] at hcovered
  obtain ⟨rest', s', seq, hrest, hseq, hnew, hopened⟩ := ht.reopen hcount hdisk hclock now
  set ds := logDescriptors h s.streamID (segmentBytes s.streamID h segmentClass before).length
    (after ++ rest') with hds
  -- Recovery replays the live records, and records of the log only.
  have hlive' : ∀ d ∈ live, d ∈ ds := by
    intro d hd
    rw [hds, logDescriptors_append]
    exact mem_append_left _ (hlive ▸ hd)
  have hall : ∀ d ∈ ds, d ∈ segmentDescriptors s.streamID h (before ++ after ++ rest) := by
    intro d hd
    obtain ⟨rest'', rfl⟩ := hrest
    rw [← append_assoc, append_assoc before, segmentDescriptors_append _ _ segmentClass,
      segmentDescriptors_append _ _ segmentClass]
    exact mem_append_left _ (mem_append_right _ hd)
  have hput : ∀ k, ¬ deleteCommitted log k → ∀ d ∈ ds, d.key = k → d.op = .put := by
    rintro k hk d hd rfl
    exact hr.records d (hall d hd) hk
  refine ⟨s', hnew, ⟨h, _, seq, hopened, hseq⟩, ?_, ?_⟩
  · intro k v hk hv
    rw [hopened.segmentID]
    rw [hopened.index] at hv
    rcases lookup_replayed s.index (hput k hk) with ⟨-, heq⟩ | ⟨d, hd, -, heq⟩
    · obtain ⟨hstate, hle⟩ := hr.values k v hk (heq ▸ hv)
      exact ⟨hstate, Nat.lt_succ_of_le hle⟩
    · obtain rfl := Option.some.inj (heq.symm.trans hv)
      refine ⟨rfl, ?_⟩
      show d.segmentID < h + 1
      rw [segmentID_of_mem_log hd]
      exact Nat.lt_succ_self h
  · intro k sum hk hack
    obtain ⟨hindex, hrecord⟩ := hr.checksums k sum hk hack
    rw [hopened.index]
    rcases lookup_replayed s.index (hput k hk) with ⟨hnone, heq⟩ | ⟨d, hd, hkey, heq⟩
    · have hsome : (s.index.lookup k).isSome := by
        rcases hr.present k sum hk hack with hsome | ⟨d, hd, hkey⟩ | ⟨v, hv, hstate, hne⟩
        · exact hsome
        · exact absurd hkey (hnone d (hlive' d hd))
        · exact (hcovered k v hv hstate).resolve_right hne
      obtain ⟨v, hv⟩ := isSome_iff_exists.mp hsome
      exact ⟨v, heq.trans hv, hindex v hv⟩
    · exact ⟨_, heq, hrecord d (hall d hd) hkey⟩

/-- The records in the log of the active segment. -/
def Store.records (s : Store) (es : List LogEntry) : List CommitDescriptor :=
  segmentDescriptors s.streamID s.alloc.segmentID es

theorem records_congr {s' : Store} (hstream : s'.streamID = s.streamID)
    (hseg : s'.alloc.segmentID = s.alloc.segmentID) : s'.records = s.records := by
  unfold records
  rw [hstream, hseg]

namespace Machine

/-! ### Serving -/

/--
A node that serves.  Locations of extents nobody deleted are durable and lie in
segments up to the active one; those in the active one have their record in its log.
What lies in front of the checkpoint is in the index.  While a flush is in progress
nothing new reaches the overlay, and its marker is the last entry of the log.
-/
structure Serving (cfg : Config) (m : Machine) (past : List Event) (before after : List LogEntry)
    (file : File) (q : UInt64) : Prop where
  fenced : Fenced m
  logging : m.store.Logging cfg before after file q
  frames : ∀ t req pw, m.calls.lookup t = some (req, .submitted pw) → ∃ r, pw.Frames r
  placed : ∀ k v, ¬ deleteCommitted (m.log ++ past) k → Holds m k v →
    v.state = .durable ∧ v.segmentID ≤ m.store.alloc.segmentID ∧
      (v.segmentID = m.store.alloc.segmentID →
        ∃ d ∈ m.store.records (before ++ after),
          d.key = k)
  recorded : ∀ d ∈ m.store.records (before ++ after),
    ¬ deleteCommitted (m.log ++ past) d.key → d.op = .put ∧ m.store.Knows d.key d.checksum
  indexed : ∀ d ∈ m.store.records before,
    ¬ deleteCommitted (m.log ++ past) d.key → (m.store.index.lookup d.key).isSome
  acked : ∀ k sum, ¬ deleteCommitted (m.log ++ past) k → .acked k sum ∈ past →
    m.store.Knows k sum
  flushing : ∀ fl ph, m.flushing = some (fl, ph) →
    fl.safe = m.store.streamSeq ∧ m.store.overlay.entries = ∅
  marked : ∀ fl cp, m.flushing = some (fl, .marked cp) →
    cp = ⟨m.store.alloc.segmentID, file.bytes.length, m.store.streamSeq⟩ ∧
      ∃ es, before ++ after = es ++ [.safeAt m.store.streamSeq]

variable {past : List Event}

theorem deleteCommitted_mono {log log' : List Event} {k : Key} (h : log ⊆ log')
    (hk : ¬ deleteCommitted (log' ++ past) k) : ¬ deleteCommitted (log ++ past) k := by
  have hsub : log ++ past ⊆ log' ++ past :=
    append_subset.mpr ⟨List.Subset.trans h (subset_append_left _ _),
      subset_append_right _ _⟩
  exact fun hdel => hk (hdel.imp (fun h => hsub h) fun h => hsub h)

/-- A store that was just opened serves. -/
theorem serving_init (h : Restored cfg past s) :
    ∃ file, Serving cfg (init s) past [] [] file 0 := by
  obtain ⟨n, index, seq, hopened, hseq⟩ := h.opened
  obtain ⟨file, hlogging⟩ := hopened.logging hseq
  have hfenced : Fenced (init s) := fenced_init hopened.overlay hopened.applyCh
  refine ⟨file, hfenced, hlogging, by simp [init], ?_, ?_, ?_, ?_, by simp [init], by simp [init]⟩
  · intro k v hk hv
    obtain ⟨hstate, hlt⟩ := h.values k v hk (holds_init hopened.overlay hopened.applyCh hv)
    exact ⟨hstate, Nat.le_of_lt hlt, fun heq => absurd heq (Nat.ne_of_lt hlt)⟩
  · simp [records, segmentDescriptors, logDescriptors]
  · simp [records, segmentDescriptors, logDescriptors]
  · intro k sum hk hack
    obtain ⟨v, hv, hsum⟩ := h.acked k sum hk hack
    obtain ⟨w, hw, hwsum⟩ := hfenced.knows (.index hv)
    exact ⟨w, hw, hwsum.trans hsum⟩

section Steps

variable {c : FrameCodec} {m m' : Machine} {a : Action}
  {before after before' after' : List LogEntry} {file file' : File} {q q' : UInt64}

/-- The flush fails and nothing is written, or its marker is the last entry of the log. -/
theorem flushMark_logging (h : m.store.Logging cfg before after file q)
    (hsafe : ∀ fl ph, m.flushing = some (fl, ph) → fl.safe = m.store.streamSeq)
    (hstep : m.flushMark = some m') :
    m' = { m with store := m.store.flushAbort, flushing := none } ∨
      ∃ fl t file', MarkAppended m.store m'.store file m.store.streamSeq t file' ∧
        m'.store.Logging cfg before (after ++ [.safeAt m.store.streamSeq]) file' q ∧
        m.flushing = some (fl, .applied) ∧ m'.flushing = some (fl, .marked
          ⟨m'.store.alloc.segmentID, file'.bytes.length, m'.store.streamSeq⟩) := by
  obtain ⟨fl, hfl, hmark⟩ := flushMark_cases hstep
  rw [hsafe fl _ hfl] at hmark
  have hmarking := h.marking
  generalize m.store.writeIndexSafeLocked none m.store.streamSeq = r at hmark hmarking
  cases hmarking with
  | full e =>
    rcases hmark with ⟨e', -, rfl⟩ | ⟨cp, hok, -⟩
    · exact .inl rfl
    · cases hok
  | @written s' t file' happ hlog =>
    rcases hmark with ⟨e', herr, -⟩ | ⟨cp, hok, rfl⟩
    · cases herr
    · cases hok
      exact .inr ⟨fl, t, file', happ, hlog, hfl, rfl⟩

/--
The fields of the formats hold what the step writes: the frames of a payload can be
counted in 16 bits, the record has a 32-bit length, and sequences stay below the
values that would make a marker look like another entry.
-/
def FitsFormat (c : FrameCodec) (m : Machine) : Action → Prop
  | .start _ (.write k data) nonce => frameCount defaultFrameSize data < 2 ^ 16 ∧
      ∀ pw, Store.buildWrite c nonce k data = .ok pw → pw.bytes.length < 2 ^ 32
  | .commit ts _ => m.store.streamSeq.toNat + ts.length < seqBound
  | _ => True

theorem forall_ok_iff {r : Except Err PendingWrite} {p : PendingWrite → Prop} :
    (∀ pw ∈ r.toOption, p pw) ↔ ∀ pw, r = .ok pw → p pw := by
  cases r <;> simp [Except.toOption]

instance (c : FrameCodec) (m : Machine) (a : Action) : Decidable (FitsFormat c m a) :=
  match a with
  | .start _ (.write k data) nonce =>
    have : Decidable (∀ pw, Store.buildWrite c nonce k data = .ok pw → pw.bytes.length < 2 ^ 32) :=
      decidable_of_iff _ forall_ok_iff
    inferInstanceAs (Decidable (_ ∧ _))
  | .commit ts _ => inferInstanceAs (Decidable (m.store.streamSeq.toNat + ts.length < seqBound))
  | .start _ (.delete _) _ | .finish _ | .take | .applyTaken | .flushDrain | .flushApply
  | .flushMark | .flushStore | .flushAbort | .append _ _ _ _ _ | .relocateCheck _
  | .relocatePut _ => isTrue trivial

/-- A call that is started builds a framed record. -/
theorem frames_of_started {t : Thread} {req : Request} {pw : PendingWrite}
    (hfits : FitsFormat c m a)
    (h : Started c m a t req pw) : ∃ r, pw.Frames r := by
  obtain ⟨nonce, rfl, hreq⟩ := h
  cases req with
  | write k data =>
    obtain ⟨-, hbuild⟩ := hreq
    obtain ⟨hcount, hlen⟩ := hfits
    obtain ⟨key, -, hput⟩ := buildWrite_ok hbuild
    exact buildPut_frames hput hcount (hlen pw hbuild)
  | delete k =>
    obtain ⟨v, -, rfl⟩ := hreq
    exact deletePending_frames k v

section

variable (h : Serving cfg m past before after file q)
include h

/-- The step lemma, with what a step does to the log as hypotheses. -/
theorem Serving.of_step (hfence : KeepsFence m a) (hstep : step c m a = some m')
    (hlogging : m'.store.Logging cfg before' after' file' q') (hfits : FitsFormat c m a)
    (hle : m.store.alloc.segmentID ≤ m'.store.alloc.segmentID)
    (hkept : m'.store.alloc.segmentID = m.store.alloc.segmentID → ∀ d ∈ m.store.records (before ++
      after), d ∈ m'.store.records (before' ++ after'))
    (hpublished : ∀ k v, ¬ deleteCommitted (m'.log ++ past) k → Published m a k v → v.state =
      .durable ∧ v.segmentID = m'.store.alloc.segmentID ∧ ∃ d ∈ m'.store.records (before' ++
      after'), d.key = k)
    (hnew : ∀ d ∈ m'.store.records (before' ++ after'), ¬ deleteCommitted (m'.log ++ past) d.key →
      d ∈ m.store.records (before ++ after) ∨ d.op = .put ∧ m'.store.Knows d.key d.checksum)
    (hindexed : ∀ d ∈ m'.store.records before', ¬ deleteCommitted (m'.log ++ past) d.key →
      (m'.store.index.lookup d.key).isSome)
    (hflushing : ∀ fl ph, m'.flushing = some (fl, ph) → fl.safe = m'.store.streamSeq ∧
      m'.store.overlay.entries = ∅)
    (hmarked : ∀ fl cp, m'.flushing = some (fl, .marked cp) → cp = ⟨m'.store.alloc.segmentID,
      file'.bytes.length, m'.store.streamSeq⟩ ∧ ∃ es, before' ++ after' = es ++ [.safeAt
      m'.store.streamSeq]) : Serving cfg m' past before' after' file' q' := by
  have hmoves := step_moves h.fenced.sound hstep
  have hmono : ∀ k, ¬ deleteCommitted (m'.log ++ past) k → ¬ deleteCommitted (m.log ++ past) k :=
    fun k => deleteCommitted_mono hmoves.log
  refine ⟨h.fenced.step hfence hstep, hlogging, ?_, ?_, ?_, hindexed, ?_, hflushing, hmarked⟩
  · intro t req pw ht
    rcases hmoves.submitted t req pw ht with hold | hstarted
    · exact h.frames t req pw hold
    · exact frames_of_started hfits hstarted
  · intro k v hk hv
    rcases hmoves.carries.held k v hv with hold | ⟨hpub, -⟩
    · obtain ⟨hstate, hseg, hrecord⟩ := h.placed k v (hmono k hk) hold
      refine ⟨hstate, hseg.trans hle, fun heq => ?_⟩
      -- An old location can only lie in the active segment if that has not changed.
      have hsame : m'.store.alloc.segmentID = m.store.alloc.segmentID :=
        Nat.le_antisymm (heq ▸ hseg) hle
      obtain ⟨d, hd, hkey⟩ := hrecord (heq.trans hsame)
      exact ⟨d, hkept hsame d hd, hkey⟩
    · obtain ⟨hstate, hseg, hrecord⟩ := hpublished k v hk hpub
      exact ⟨hstate, Nat.le_of_eq hseg, fun _ => hrecord⟩
  · intro d hd hk
    rcases hnew d hd hk with hold | hnew
    · obtain ⟨hop, hknown⟩ := h.recorded d hold (hmono _ hk)
      exact ⟨hop, h.fenced.keeps hfence hstep hknown⟩
    · exact hnew
  · intro k sum hk hack
    exact h.fenced.keeps hfence hstep (h.acked k sum (hmono k hk) hack)

/-- A step that leaves the log as it is. -/
theorem Serving.of_same_log (hfence : KeepsFence m a) (hstep : step c m a = some m')
    (hfits : FitsFormat c m a) (hpub : ∀ k v, ¬ Published m a k v) (hquiet : Quiet m m') :
    Serving cfg m' past before after file q := by
  have hlog := (step_moves h.fenced.sound hstep).log
  have hlogging := h.logging.congr hquiet.store
  have halloc : m'.store.alloc = m.store.alloc := by rw [hquiet.store]
  have hrecords : m'.store.records = m.store.records :=
    records_congr (by rw [hquiet.store]) (by rw [hquiet.store])
  have hseq : m'.store.streamSeq = m.store.streamSeq := by rw [hquiet.store]
  refine h.of_step hfence hstep hlogging hfits (by rw [halloc]) ?_ ?_ ?_ ?_ ?_ ?_
  · intro _ d hd
    rwa [hrecords]
  · exact fun k v _ hv => absurd hv (hpub k v)
  · intro d hd _
    rw [hrecords] at hd
    exact .inl hd
  · intro d hd hk
    rw [hrecords] at hd
    exact hquiet.index _ (h.indexed d hd (deleteCommitted_mono hlog hk))
  · intro fl ph hfl
    rw [hseq]
    rcases hquiet.flushing fl ph hfl with ⟨hsafe, hentries⟩ | ⟨⟨ph', hfl'⟩, hentries⟩
    · exact ⟨hsafe.trans h.logging.published.flushSeq, hentries⟩
    · rw [hentries]
      exact h.flushing fl ph' hfl'
  · intro fl cp hfl
    rw [halloc, hseq]
    exact h.marked fl cp (hquiet.marked fl cp hfl)

/-- A marker is written behind the log. -/
theorem Serving.flushMark (hstep : step c m .flushMark = some m') :
    ∃ after' file', Serving cfg m' past before after' file' q := by
  have hfence : KeepsFence m .flushMark := trivial
  have hlog := (step_moves h.fenced.sound hstep).log
  rcases flushMark_logging h.logging (fun fl ph hfl => (h.flushing fl ph hfl).1) hstep with
    rfl | ⟨fl, t, file', happ, hlogging, hfl, hmarked⟩
  · exact ⟨after, file, h.of_same_log hfence hstep trivial (by simp [Published])
      ⟨rfl, fun _ => id, by simp, by simp⟩⟩
  have hsame := records_congr happ.unseen.toKept.streamID happ.segmentID
  have hdescs : m'.store.records (before ++ (after ++ [.safeAt m.store.streamSeq])) =
      m.store.records (before ++ after) := by
    rw [hsame, ← append_assoc]
    exact segmentDescriptors_safeAt _ _ _ _
  refine ⟨_, file', h.of_step hfence hstep hlogging trivial (by rw [happ.segmentID]) ?_ ?_ ?_
    ?_ ?_ ?_⟩
  · intro _ d hd
    rwa [hdescs]
  · exact fun _ _ _ hv => hv.elim
  · intro d hd _
    rw [hdescs] at hd
    exact .inl hd
  · intro d hd hk
    rw [hsame] at hd
    rw [happ.unseen.toKept.index]
    exact h.indexed d hd (deleteCommitted_mono hlog hk)
  · intro fl' ph hfl'
    rw [hmarked] at hfl'
    cases hfl'
    rw [happ.streamSeq, happ.unseen.overlay]
    exact h.flushing fl _ hfl
  · intro fl' cp hfl'
    rw [hmarked] at hfl'
    cases hfl'
    refine ⟨rfl, before ++ after, ?_⟩
    rw [happ.streamSeq, append_assoc]

/-- The checkpoint is stored: the index has all that lies in front of it. -/
theorem Serving.flushStore (hstep : step c m .flushStore = some m') :
    ∃ before' after' q', Serving cfg m' past before' after' file q' := by
  have hfence : KeepsFence m .flushStore := trivial
  obtain ⟨fl, cp, hfl, rfl | ⟨hseq, rfl⟩⟩ := flushStore_cases hstep
  · exact ⟨before, after, q, h.of_same_log hfence hstep trivial (by simp [Published])
      ⟨rfl, fun _ => id, by simp, by simp⟩⟩
  obtain ⟨rfl, es, hes⟩ := h.marked fl cp hfl
  obtain ⟨-, hentries⟩ := h.flushing fl _ hfl
  have hlogging := h.logging.checkpoint hes hseq
  -- All records of the log are known, and not from the overlay's new part.
  have hindex : ∀ d ∈ m.store.records (before ++ after), ¬ deleteCommitted (m.log ++ past) d.key →
      (m.store.index.lookup d.key).isSome := by
    intro d hd hk
    obtain ⟨-, v, hv, -⟩ := h.recorded d hd hk
    rw [Store.lookup_eq, hentries, or_eq_some_iff, or_eq_some_iff] at hv
    rcases hv with (hv | ⟨-, hv⟩) | ⟨-, hv⟩
    · simp at hv
    · exact h.fenced.sound.flush.applied fl _ hfl (by simp) d.key (by rw [hv]; rfl)
    · rw [hv]
      rfl
  refine ⟨before ++ after, [], m.store.streamSeq, h.of_step hfence hstep (hlogging.congr rfl)
    trivial le_rfl ?_ ?_ ?_ ?_ (by simp) (by simp)⟩
  · intro _ d hd
    rwa [append_nil]
  · exact fun _ _ _ hv => hv.elim
  · intro d hd _
    rw [append_nil] at hd
    exact .inl hd
  · exact hindex

end

variable {ts : List Thread} {log : List Event} {k : Key} {sum : UInt32}

variable {batch : List (Request × PendingWrite)}

/-- A committed record of an extent nobody deleted is a put. -/
theorem put_of_undeleted {placed : List PlacedWrite}
    (hcalls : CallsOK m) (hbatch : ts.mapM m.submitted = some batch)
    (hplaced : placed.map PlacedWrite.toPendingWrite = batch.map Prod.snd)
    (hlog : ∀ pw ∈ placed, pw.header.op = .delete → deleteCommitted log pw.key) {pw : PlacedWrite}
    (hpw : pw ∈ placed) (hk : ¬ deleteCommitted log pw.key) :
    pw.header.op = .put ∧ pw.published = pw.location .durable := by
  obtain ⟨t, req, -, hlook⟩ := waiting_of_placed hbatch hplaced hpw
  have hmatch := hcalls.submitted t req _ hlook
  cases req with
  | write k data =>
    obtain ⟨-, hop, hvalue, -⟩ := hmatch
    refine ⟨hop, ?_⟩
    unfold PlacedWrite.published
    rw [hvalue]
    rfl
  | delete k =>
    obtain ⟨v, hv⟩ := hmatch
    exact absurd (hlog pw hpw (by rw [hv]; rfl)) hk

/-- What is committed together are framed records, and their sequences are in bounds. -/
theorem batch_fits {n : Nat} (hts : ts ≠ [])
    (hframes : ∀ t req pw, m.calls.lookup t = some (req, .submitted pw) → ∃ r, pw.Frames r)
    (hbound : n + ts.length < seqBound) (hbatch : ts.mapM m.submitted = some batch) :
    batch.map Prod.snd ≠ [] ∧ (∀ pw ∈ batch.map Prod.snd, ∃ r, pw.Frames r) ∧
      n + (batch.map Prod.snd).length < seqBound := by
  have hlen : (batch.map Prod.snd).length = ts.length := by
    rw [length_map, length_batch hbatch]
  refine ⟨?_, fun pw hpw => ?_, by rwa [hlen]⟩
  · rw [← length_pos_iff, hlen]
    exact length_pos_iff.mpr hts
  · obtain ⟨p, hp, rfl⟩ := mem_map.mp hpw
    obtain ⟨t, -, hlook⟩ := waiting_of_mem hbatch hp
    exact hframes t _ _ hlook

section

variable (h : Serving cfg m past before after file q)
include h

/-- **A commit**, with or without a rotation. -/
theorem Serving.commit {now : UInt64} (hfence : KeepsFence m (.commit ts now))
    (hfits : FitsFormat c m (.commit ts now)) (hstep : step c m (.commit ts now) = some m') :
    ∃ before' after' file' q', Serving cfg m' past before' after' file' q' := by
  have hcalls := h.fenced.sound.calls
  have hlog := (step_moves h.fenced.sound hstep).log
  obtain ⟨hnone, hts, batch, hbatch, hcases⟩ := commit_cases hstep hcalls
  obtain ⟨hne, hframes, hbound⟩ := batch_fits hts h.frames hfits hbatch
  -- What the log had is still there, or lies in an older segment.
  have hcontinues : ∀ (s : Store) (before' after' : List LogEntry), s.streamID = m.store.streamID →
      Continues m.store.alloc.segmentID before after s.alloc.segmentID before' after' →
      m.store.alloc.segmentID ≤ s.alloc.segmentID ∧
        (s.alloc.segmentID = m.store.alloc.segmentID → before' = before ∧ after' = after) ∧
        (∀ d ∈ s.records (before' ++ after'), d ∈ m.store.records (before ++ after)) ∧
        ∀ d ∈ s.records before', d ∈ m.store.records before := by
    intro s before' after' hstream hcont
    rcases hcont.elim with ⟨hseg, rfl, rfl⟩ | ⟨hseg, rfl, rfl⟩
    · rw [records_congr hstream hseg, hseg]
      exact ⟨le_rfl, fun _ => ⟨rfl, rfl⟩, fun _ => id, fun _ => id⟩
    · rw [hseg]
      exact ⟨Nat.le_succ _, fun heq => absurd heq (Nat.succ_ne_self _),
        by simp [records, segmentDescriptors, logDescriptors],
        by simp [records, segmentDescriptors, logDescriptors]⟩
  rcases hcases with ⟨e, s, hcommit, hunseen, rfl⟩ | ⟨placed, s, hcommit, hplaced, hkept, hoverlay,
    hmatch, rfl⟩
  · rcases h.logging.commitBatch hne hframes hbound now with ⟨e', s', before', after', file', q',
      heq, hlogging, hcont⟩ | ⟨placed, s', before', after', b, file', q', heq, -⟩
    · obtain ⟨-, rfl⟩ := Prod.mk.inj (hcommit.symm.trans heq)
      obtain ⟨hle, hsame, hold, hindex⟩ := hcontinues s before' after' hunseen.toKept.streamID hcont
      have hpub : ∀ k v, ¬ Published m (.commit ts now) k v := by
        rintro k v ⟨batch', placed, s', hbatch', hok, -⟩
        obtain rfl := Option.some.inj (hbatch.symm.trans hbatch')
        simp [hcommit] at hok
      refine ⟨before', after', file', q', ?_⟩
      rw [retAll_eq] at hstep hlog ⊢
      refine h.of_step hfence hstep hlogging hfits hle ?_ ?_ ?_ ?_ ?_ ?_
      · intro heq' d hd
        obtain ⟨rfl, rfl⟩ := hsame heq'
        rwa [records_congr hunseen.toKept.streamID heq']
      · exact fun k v _ hv => absurd hv (hpub k v)
      · exact fun d hd _ => .inl (hold d hd)
      · intro d hd hk
        rw [hunseen.toKept.index]
        exact h.indexed d (hindex d hd) (deleteCommitted_mono hlog hk)
      · simp [hnone]
      · simp [hnone]
    · simp [hcommit] at heq
  · rcases h.logging.commitBatch hne hframes hbound now with ⟨e', s', before', after', file', q',
      heq, -⟩ | ⟨placed', s', before', after', b, file', q', heq, hlogging, hcont, hbehind⟩
    · simp [hcommit] at heq
    · obtain ⟨hok, rfl⟩ := Prod.mk.inj (hcommit.symm.trans heq)
      cases hok
      obtain ⟨hle, hsame, hold, hindex⟩ := hcontinues s before' after' hkept.streamID hcont
      have hdescs : s.records (before' ++ (after' ++ [.batch b])) =
          s.records (before' ++ after') ++ placed.map PlacedWrite.descriptor := by
        rw [← append_assoc]
        exact hbehind.descriptors
      have hevent : ∀ pw ∈ placed, pw.header.op = .delete →
          deleteCommitted ((commitAll (ts.zip (batch.map Prod.fst)) placed
            { m with store := s }).log ++ past) pw.key := by
        intro pw hpw hop
        have hmem := mem_logCommitted hpw m.log
        rw [hop] at hmem
        rw [commitAll_log hmatch.length_eq]
        exact .inl (mem_append_left _ hmem)
      -- A placed write stands in the log.
      have hin : ∀ pw ∈ placed, pw.descriptor ∈ s.records (before' ++ (after' ++ [.batch b])) := by
        intro pw hpw
        rw [hdescs]
        exact mem_append_right _ (mem_map_of_mem hpw)
      refine ⟨before', after' ++ [.batch b], file', q', ?_⟩
      rw [commitAll_eq] at hstep hlog hevent ⊢
      refine h.of_step hfence hstep hlogging hfits hle ?_ ?_ ?_ ?_ ?_ ?_
      · intro heq' d hd
        obtain ⟨rfl, rfl⟩ := hsame heq'
        rw [hdescs, records_congr hkept.streamID heq']
        exact mem_append_left _ hd
      · rintro k v hk ⟨batch', placed', s', hbatch', hok', pw, hpw, rfl, rfl⟩
        obtain rfl := Option.some.inj (hbatch.symm.trans hbatch')
        obtain ⟨hplaced', -⟩ := Prod.mk.inj (hcommit.symm.trans hok')
        cases hplaced'
        obtain ⟨-, hvalue⟩ := put_of_undeleted hcalls hbatch hplaced hevent hpw hk
        rw [hvalue]
        exact ⟨rfl, segmentID_of_mem_log (hin pw hpw), pw.descriptor, hin pw hpw, rfl⟩
      · intro d hd hk
        dsimp only at hd ⊢
        rw [hdescs, mem_append] at hd
        rcases hd with hd | hd
        · exact .inl (hold d hd)
        obtain ⟨pw, hpw, rfl⟩ := mem_map.mp hd
        obtain ⟨hop, hvalue⟩ := put_of_undeleted hcalls hbatch hplaced hevent hpw hk
        refine .inr ⟨hop, ?_⟩
        -- The overlay has this write or another one of the same extent and checksum.
        rcases Store.lookup_putPlaced m.store.overlay placed pw.key with ⟨hnot, -⟩ |
          ⟨pw', hpw', hkey, hlook⟩
        · exact absurd rfl (hnot pw hpw)
        refine ⟨pw'.published, ?_, ?_⟩
        · show s.lookup pw.key = _
          rw [Store.lookup_eq, hoverlay, hlook]
          rfl
        · rw [((h.fenced.batch_fits hfence hbatch hplaced) pw hpw).2 pw' hpw' hkey, hvalue]
          rfl
      · intro d hd hk
        rw [hkept.index]
        exact h.indexed d (hindex d hd) (deleteCommitted_mono hlog hk)
      · simp [hnone]
      · simp [hnone]

/-- **Every step of a serving node.** -/
theorem Serving.act (hserving : a.isServing = true) (hfence : KeepsFence m a)
    (hfits : FitsFormat c m a) (hstep : step c m a = some m') :
    ∃ before' after' file' q', Serving cfg m' past before' after' file' q' := by
  cases a with
  | commit ts now => exact h.commit hfence hfits hstep
  | flushMark =>
    obtain ⟨after', file', h'⟩ := h.flushMark hstep
    exact ⟨_, _, _, _, h'⟩
  | flushStore =>
    obtain ⟨before', after', q', h'⟩ := h.flushStore hstep
    exact ⟨_, _, _, _, h'⟩
  | append k data codec nonce now | relocatePut r | relocateCheck r =>
    simp [Action.isServing] at hserving
  | _ =>
    exact ⟨before, after, file, q, h.of_same_log hfence hstep hfits (fun _ _ => id)
      (.of_step hstep rfl)⟩

/-! ### Being cut off -/

/-- What was acknowledged is known. -/
theorem Serving.knows (hk : ¬ deleteCommitted (m.log ++ past) k)
    (hack : .acked k sum ∈ m.log ++ past) : m.store.Knows k sum := by
  rcases mem_append.mp hack with hack | hack
  · exact h.fenced.acked k sum hack
  · exact h.acked k sum hk hack

/-- What is known of an extent nobody deleted is in the index, or its record stands behind the
checkpoint, or it lies in an older segment. -/
theorem Serving.found (segmentClass : SegmentClass) (hk : ¬ deleteCommitted (m.log ++ past) k)
    (hsum : m.store.Knows k sum) :
    (m.store.index.lookup k).isSome ∨ ∃ v, m.store.overlay.get k = some v ∧ v.state = .durable ∧
      v.segmentID ≤ m.store.alloc.segmentID ∧ (v.segmentID = m.store.alloc.segmentID →
        ∃ d ∈ logDescriptors m.store.alloc.segmentID m.store.streamID (segmentBytes m.store.streamID
          m.store.alloc.segmentID segmentClass before).length after, d.key = k) := by
  by_cases hindex : (m.store.index.lookup k).isSome = true
  · exact .inl hindex
  obtain ⟨v, hv, -⟩ := hsum
  obtain ⟨hstate, hle, hrecord⟩ := h.placed k v hk (holds_of_lookup hv)
  have hget : m.store.overlay.get k = some v := by
    unfold Store.lookup at hv
    rw [not_isSome_iff_eq_none] at hindex
    rwa [hindex, or_none] at hv
  refine .inr ⟨v, hget, hstate, hle, fun heq => ?_⟩
  obtain ⟨d, hd, rfl⟩ := hrecord heq
  rw [records, segmentDescriptors_append _ _ segmentClass, mem_append] at hd
  rcases hd with hd | hd
  · exact absurd (h.indexed d hd hk) hindex
  · exact ⟨d, hd, rfl⟩

/-- What a serving node leaves when it is cut off, with what was being written as hypotheses. -/
theorem Serving.leaves (hsub : m.log ++ past ⊆ log)
    (hack : ∀ k sum, .acked k sum ∈ log → .acked k sum ∈ m.log ++ past)
    (hstream : s.streamID = m.store.streamID) (hindex : s.index = m.store.index) {n : SegmentID}
    {after1 : List LogEntry} (segmentClass : SegmentClass)
    (hcont : Continues m.store.alloc.segmentID before after n before' after1)
    {all live new : List CommitDescriptor}
    (hall : ∀ d ∈ all, d ∈ segmentDescriptors s.streamID n (before' ++ after1) ∨ d ∈ new)
    (hlive : ∀ d ∈ logDescriptors n s.streamID (segmentBytes s.streamID n segmentClass
      before').length after1, d ∈ live)
    (hnew : ∀ d ∈ new, ¬ deleteCommitted log d.key → d.op = .put ∧ ∀ v, m.store.lookup d.key = some
      v → v.checksum = d.checksum)
    (hoverlay : ∀ k, s.overlay.get k = m.store.overlay.get k ∨ ∃ d ∈ live, d.key = k) :
    Recorded log s n all live := by
  have hmono : ∀ k, ¬ deleteCommitted log k → ¬ deleteCommitted (m.log ++ past) k :=
    fun k hk hdel => hk (hdel.imp (fun h => hsub h) fun h => hsub h)
  have hle : m.store.alloc.segmentID ≤ n := by
    rcases hcont.elim with ⟨rfl, -⟩ | ⟨rfl, -⟩
    · exact le_rfl
    · exact Nat.le_succ _
  have hold : ∀ d ∈ all, ¬ deleteCommitted log d.key →
      (d.op = .put ∧ m.store.Knows d.key d.checksum) ∨ d ∈ new := by
    intro d hd hk
    refine (hall d hd).imp_left fun hd => ?_
    rw [hstream] at hd
    rcases hcont.elim with ⟨rfl, rfl, rfl⟩ | ⟨rfl, rfl, rfl⟩
    · exact h.recorded d hd (hmono _ hk)
    · simp [segmentDescriptors, logDescriptors] at hd
  refine ⟨?_, ?_, ?_, ?_⟩
  · intro k v hk hv
    rw [hindex] at hv
    obtain ⟨hstate, hseg, -⟩ := h.placed k v (hmono k hk) (.index hv)
    exact ⟨hstate, hseg.trans hle⟩
  · intro d hd hk
    rcases hold d hd hk with ⟨hop, -⟩ | hd
    · exact hop
    · exact (hnew d hd hk).1
  · intro k sum hk hacked
    have hsum := h.knows (hmono k hk) (hack k sum hacked)
    refine ⟨?_, ?_⟩
    · intro v hv
      rw [hindex] at hv
      exact (h.fenced.knows (.index hv)).unique hsum
    · rintro d hd rfl
      rcases hold d hd hk with ⟨-, hknown⟩ | hd
      · exact hknown.unique hsum
      · obtain ⟨v, hv, rfl⟩ := hsum
        exact ((hnew d hd hk).2 v hv).symm
  · intro k sum hk hacked
    rw [hindex]
    rcases h.found segmentClass (hmono k hk) (h.knows (hmono k hk) (hack k sum hacked)) with
      hsome | ⟨v, hv, hstate, hseg, hrecord⟩
    · exact .inl hsome
    rcases hoverlay k with hsame | hnewer
    · by_cases hn : v.segmentID = n
      · -- The location lies in the highest segment, so that is still the active one.
        rcases hcont.elim with ⟨rfl, rfl, rfl⟩ | ⟨rfl, -⟩
        · obtain ⟨d, hd, hkey⟩ := hrecord hn
          rw [← hstream] at hd
          exact .inr (.inl ⟨d, hlive d hd, hkey⟩)
        · exact absurd (hn ▸ hseg) (Nat.not_succ_le_self _)
      · exact .inr (.inr ⟨v, hsame.trans hv, hstate, hn⟩)
    · exact .inr (.inl hnewer)

end

end Steps

end Machine

/-! ### Nodes -/

namespace Node

/-- What a node keeps of the extents nobody deleted. -/
def Keeps (cfg : Config) : Node → Prop
  | .serving m past => ∃ before after file q, m.Serving cfg past before after file q
  | .halted s past => ∃ h segmentClass file before after rest tail q,
      TornLog cfg s h segmentClass file before after rest tail q ∧
      Recorded past s h (segmentDescriptors s.streamID h (before ++ after ++ rest))
        (logDescriptors h s.streamID (segmentBytes s.streamID h segmentClass before).length after)
  | .down disk past => ∀ clock : RecoveryClock, clock.Quiet → ∀ now,
      ∃ s, Store.new cfg clock now disk = .ok s ∧ Restored cfg past s

/--
The step cannot lose an acknowledged write: commits keep the fence and fit the
formats, a crash finds the locations of older segments in the index and a highest
segment that recovery can read, and recovery is not stopped by its deadline.
-/
def KeepsDurable (c : FrameCodec) (cfg : Config) : Node → NodeAction → Prop
  | .serving m _, .act a => m.KeepsFence a ∧ m.FitsFormat c a
  | .serving m _, .cutOff (.commit ts now _) =>
    m.KeepsFence (.commit ts now) ∧ m.FitsFormat c (.commit ts now)
  | .halted s _, .crash keep => SafeCrash cfg s keep
  | .down _ _, .reopen clock _ => clock.Quiet
  | _, _ => True

section Life

variable {c : FrameCodec} {m : Machine} {past : List Event} {before after : List LogEntry}
  {file : File} {q : UInt64}

/-- Where no record was being written, there is none to fit. -/
theorem fits_nothing {log : List Event} (s : Store) :
    ∀ d ∈ ([] : List CommitDescriptor), ¬ deleteCommitted log d.key →
      d.op = .put ∧ ∀ v, s.lookup d.key = some v → v.checksum = d.checksum := by
  simp

/-- Cut off where nothing but a marker was being written. -/
theorem keeps_between (h : m.Serving cfg past before after file q) {file' : File}
    {rest : List LogEntry} (hstream : s.streamID = m.store.streamID)
    (hindex : s.index = m.store.index) (hoverlay : s.overlay = m.store.overlay)
    (htorn : TornLog cfg s m.store.alloc.segmentID m.store.alloc.segmentClass file' before after
      rest [] q)
    (hrest : segmentDescriptors s.streamID m.store.alloc.segmentID (before ++ after ++ rest) =
      segmentDescriptors s.streamID m.store.alloc.segmentID (before ++ after)) :
    Keeps cfg (.halted s (m.log ++ past)) := by
  refine ⟨_, _, _, _, _, _, _, _, htorn, ?_⟩
  refine h.leaves (.refl _) (fun _ _ => id) hstream hindex _ .same ?_ (fun _ => id)
    (fits_nothing m.store) fun k => .inl (by rw [hoverlay])
  intro d hd
  rw [hrest] at hd
  exact .inl hd

/-- Cut off inside a commit. -/
theorem keeps_commit (h : m.Serving cfg past before after file q) {ts : List Thread} {now : UInt64}
    (fault : Fault) (hfence : m.KeepsFence (.commit ts now))
    (hfits : m.FitsFormat c (.commit ts now)) (hts : ts ≠ [])
    (hbatch : ts.mapM m.submitted = some batch) :
    Keeps cfg (.halted (Store.commitBatch fault now (batch.map Prod.snd) m.store).2
      ((batch.map fun p => .interrupted p.2.key p.2.header.op) ++ (m.log ++ past))) := by
  set events := batch.map fun p => Event.interrupted p.2.key p.2.header.op with hevents
  set s := (Store.commitBatch fault now (batch.map Prod.snd) m.store).2
  obtain ⟨hne, hframes, hbound⟩ := Machine.batch_fits hts h.frames hfits hbatch
  obtain ⟨n, cls, file', before', after1, after', rest, tail, q', htorn, hcont, hcut⟩ :=
    h.logging.commitBatch_cut hne hframes hbound fault now
  have hkept : Kept m.store s := (commitBatch_commits fault now (batch.map Prod.snd) m.store).kept
  have hack : ∀ k sum, .acked k sum ∈ events ++ (m.log ++ past) → .acked k sum ∈ m.log ++ past := by
    intro k sum hmem
    refine (mem_append.mp hmem).resolve_left ?_
    simp [hevents]
  -- Records of the batch are puts that fit what is known, or deletes.
  have hnew : ∀ placed : List PlacedWrite,
      placed.map PlacedWrite.toPendingWrite = batch.map Prod.snd →
      ∀ d ∈ placed.map PlacedWrite.descriptor, ¬ deleteCommitted (events ++ (m.log ++ past)) d.key →
          d.op = .put ∧ ∀ v, m.store.lookup d.key = some v → v.checksum = d.checksum := by
    intro placed hplaced d hd hk
    obtain ⟨pw, hpw, rfl⟩ := mem_map.mp hd
    have hevent : ∀ pw ∈ placed, pw.header.op = .delete →
        deleteCommitted (events ++ (m.log ++ past)) pw.key := by
      intro pw hpw hop
      obtain ⟨t, req, hp, -⟩ := Machine.waiting_of_placed hbatch hplaced hpw
      refine .inr (mem_append_left _ (mem_map.mpr ⟨_, hp, ?_⟩))
      rw [hop]
    obtain ⟨hop, hvalue⟩ := Machine.put_of_undeleted h.fenced.sound.calls
      hbatch hplaced hevent hpw hk
    refine ⟨hop, fun v hv => ?_⟩
    have hfits := (h.fenced.batch_fits hfence hbatch hplaced pw hpw).1 v hv
    rw [hvalue] at hfits
    exact hfits
  refine ⟨n, cls, file', before', after', rest, tail, q', htorn, ?_⟩
  have hsub : m.log ++ past ⊆ events ++ (m.log ++ past) := subset_append_right _ _
  cases hcut with
  | front hoverlay =>
    refine h.leaves hsub hack hkept.streamID hkept.index cls hcont ?_ (fun _ => id)
      (fits_nothing m.store) fun k => .inl (by rw [hoverlay])
    intro d hd
    rw [append_nil] at hd
    exact .inl hd
  | @inside b placed hplaced hoverlay =>
    refine h.leaves hsub hack hkept.streamID hkept.index cls hcont ?_ (fun _ => id)
      (hnew placed hplaced.batch) fun k => .inl (by rw [hoverlay])
    intro d hd
    rwa [hplaced.descriptors, mem_append] at hd
  | @behind b placed hplaced hoverlay =>
    have hlive : logDescriptors n s.streamID (segmentBytes s.streamID n cls before').length
        (after1 ++ [.batch b]) = logDescriptors n s.streamID
          (segmentBytes s.streamID n cls before').length after1 ++
            placed.map PlacedWrite.descriptor := by
      have hdescs := hplaced.descriptors
      rw [append_assoc, segmentDescriptors_append _ _ cls, segmentDescriptors_append _ _ cls,
        append_assoc] at hdescs
      exact append_cancel_left hdescs
    refine h.leaves hsub hack hkept.streamID hkept.index cls hcont ?_ ?_
      (hnew placed hplaced.batch) ?_
    · intro d hd
      rw [append_nil, ← append_assoc, hplaced.descriptors, mem_append] at hd
      exact hd
    · intro d hd
      rw [hlive]
      exact mem_append_left _ hd
    intro k
    rcases lookup_putPlaced m.store.overlay placed k with ⟨-, heq⟩ | ⟨pw, hpw, hkey, -⟩
    · refine .inl ?_
      unfold Overlay.get
      rw [hoverlay, heq, draining_putPlaced]
    · refine .inr ⟨pw.descriptor, ?_, hkey⟩
      rw [hlive]
      exact mem_append_right _ (mem_map_of_mem hpw)

/-- **Every step of a node** keeps what was acknowledged. -/
theorem keeps_step {n n' : Node} {a : NodeAction} (h : Keeps cfg n)
    (hguard : KeepsDurable c cfg n a) (hstep : step c cfg n a = some n') : Keeps cfg n' := by
  cases n with
  | serving m past =>
    obtain ⟨before, after, file, q, hm⟩ := h
    cases a with
    | act a =>
      simp only [step] at hstep
      split_ifs at hstep with hserving
      obtain ⟨m', hm', rfl⟩ := map_eq_some_iff.mp hstep
      exact hm.act hserving hguard.1 hguard.2 hm'
    | cutOff w =>
      simp only [step] at hstep
      obtain ⟨⟨s, events⟩, hcut, rfl⟩ := map_eq_some_iff.mp hstep
      cases w with
      | between =>
        cases hcut
        exact keeps_between hm rfl rfl rfl hm.logging.torn (by rw [append_nil])
      | commit ts now fault =>
        simp only [Machine.cutOff] at hcut
        split_ifs at hcut with hidle
        simp only [not_or] at hidle
        obtain ⟨batch, hbatch, heq⟩ := map_eq_some_iff.mp hcut
        cases heq
        exact keeps_commit hm (some fault) hguard.1 hguard.2 hidle.2.1 hbatch
      | mark fault =>
        simp only [Machine.cutOff] at hcut
        split at hcut
        · rename_i fl hfl
          cases hcut
          rw [(hm.flushing fl _ hfl).1]
          rcases writeIndexSafeLocked_cases (some fault) m.store.streamSeq
            hm.logging.writing.lookup hm.logging.writing.offset with ⟨e, herr⟩ | ⟨t, file', happ, -⟩
          · rw [herr]
            exact keeps_between hm rfl rfl rfl hm.logging.torn (by rw [append_nil])
          · exact keeps_between hm happ.unseen.toKept.streamID happ.unseen.toKept.index
              happ.unseen.overlay (hm.logging.torn_mark happ)
              (segmentDescriptors_safeAt _ _ _ _)
        · simp at hcut
    | _ => simp [step] at hstep
  | halted s past =>
    cases a with
    | crash keep =>
      cases hstep
      obtain ⟨h, cls, file, before, after, rest, tail, q, htorn, hrecorded⟩ := h
      intro clock hclock now
      exact Recorded.reopen htorn rfl hrecorded hguard hclock now
    | _ => simp [step] at hstep
  | down disk past =>
    cases a with
    | reopen clock now =>
      obtain ⟨s, hnew, hrestored⟩ := h clock hguard now
      simp only [step, hnew] at hstep
      cases hstep
      obtain ⟨file, hserving⟩ := Machine.serving_init hrestored
      exact ⟨_, _, _, _, hserving⟩
    | _ => simp [step] at hstep

theorem keeps_fresh (cfg : Config) : Keeps cfg fresh := by
  intro clock hclock now
  obtain ⟨s, hnew, hopened⟩ := new_empty cfg hclock now
  refine ⟨s, hnew, ⟨0, ∅, 0, hopened, by decide⟩, ?_, by simp⟩
  intro k v _ hv
  rw [hopened.index] at hv
  simp at hv

end Life

theorem acked_of_lastWrite {log : List Event} {k : Key} {sum : UInt32}
    (h : lastWrite log k = some sum) : .acked k sum ∈ log := by
  induction log with
  | nil => simp [lastWrite] at h
  | cons e log ih =>
    unfold lastWrite at h
    split at h
    · simp at h
    · rename_i heq
      obtain ⟨rfl, rfl⟩ := List.cons.inj heq
      split_ifs at h with hk
      · cases h
        rw [hk]
        exact .head _
      · exact .tail _ (ih h)
    · rename_i heq
      obtain ⟨rfl, rfl⟩ := List.cons.inj heq
      split_ifs at h
      exact .tail _ (ih h)
    · rename_i heq
      obtain ⟨rfl, rfl⟩ := List.cons.inj heq
      exact .tail _ (ih h)

/--
**Durability.**  In every run of a node whose steps keep the fence and fit the formats
and whose crashes find the locations of older segments in the index, `New` succeeds
after the crash, and every extent whose last acknowledged operation is a `Write`, and
of which no delete was committed, is found durable with the checksum written.
-/
theorem acknowledged_writes_survive (c : FrameCodec) (cfg : Config) (acts : List NodeAction)
    (hmeets : Guarded.Meets (step c cfg) (KeepsDurable c cfg) acts fresh) (disk : Disk)
    (past : List Event) (hrun : Guarded.run (step c cfg) acts fresh = some (.down disk past))
    (clock : RecoveryClock) (hclock : clock.Quiet) (now : UInt64) :
    ∃ s, Store.new cfg clock now disk = .ok s ∧
      ∀ k sum, lastWrite past k = some sum → ¬ deleteCommitted past k →
        ∃ v, s.lookup k = some v ∧ v.state = .durable ∧ v.checksum = sum := by
  have hkeeps : Keeps cfg (.down disk past) :=
    Guarded.run_invariant (fun _ _ _ h hguard hstep => keeps_step h hguard hstep) (keeps_fresh cfg)
      hmeets hrun
  obtain ⟨s, hnew, hrestored⟩ := hkeeps clock hclock now
  refine ⟨s, hnew, fun k sum hlast hk => ?_⟩
  obtain ⟨v, hv, hsum⟩ := hrestored.acked k sum hk (acked_of_lastWrite hlast)
  obtain ⟨h, index, seq, hopened, -⟩ := hrestored.opened
  refine ⟨v, ?_, (hrestored.values k v hk hv).1, hsum⟩
  rw [Store.lookup_eq, hopened.overlay]
  exact hv

/-- Whether a step meets the guard; only the clock of a reopening cannot be evaluated. -/
noncomputable instance (c : FrameCodec) (cfg : Config) (n : Node) (a : NodeAction) :
    Decidable (KeepsDurable c cfg n a) :=
  match n, a with
  | .serving _ _, .act _ => inferInstanceAs (Decidable (_ ∧ _))
  | .serving _ _, .cutOff (.commit _ _ _) => inferInstanceAs (Decidable (_ ∧ _))
  | .halted s _, .crash keep => inferInstanceAs (Decidable (SafeCrash cfg s keep))
  | .down _ _, .reopen _ _ => Classical.propDecidable _
  | .serving _ _, .cutOff .between | .serving _ _, .cutOff (.mark _) | .serving _ _, .crash _
  | .serving _ _, .reopen _ _ | .halted _ _, .act _ | .halted _ _, .cutOff _
  | .halted _ _, .reopen _ _ | .down _ _, .act _ | .down _ _, .cutOff _
  | .down _ _, .crash _ => isTrue trivial

end Node

/-! ### A small node -/

namespace SampleNode

/-- Thread 1 writes an extent and gets its receipt. -/
def write (e : ExtentID) : List NodeAction :=
  [.act (.start 1 (.write (e, 1) [5]) fun _ => []), .act (.commit [1] 0), .act (.finish 1)]

/-- The extents 7 and 8 are written, then the node stops between two steps. -/
def written : List NodeAction :=
  write 7 ++ write 8 ++ [.cutOff .between, .crash fun _ => 1000]

end SampleNode

namespace Node

open SampleNode in
/-- Two extents in one segment, a crash behind the second write: both are found again. -/
theorem both_extents_survive : ∃ disk past, Guarded.run (step SampleMachine.codec (config 4096))
        (.reopen clock 0 :: written) fresh = some (.down disk past) ∧
      ∃ s, Store.new (config 4096) clock 0 disk = .ok s ∧ ∀ k ∈ ([(7, 1), (8, 1)] : List Key),
        ∃ v, s.lookup k = some v ∧ v.state = .durable ∧ v.checksum = crc32c [5] := by
  have hmeets : Guarded.Meets (step SampleMachine.codec (config 4096))
      (KeepsDurable SampleMachine.codec (config 4096)) (.reopen clock 0 :: written) fresh := by
    refine ⟨clock_quiet, ?_⟩
    decide +kernel
  have hend : (Guarded.run (step SampleMachine.codec (config 4096)) (.reopen clock 0 :: written)
      fresh).bind (fun n => match n with
        | .down disk past => some (([(7, 1), (8, 1)] : List Key).all fun k =>
          lastWrite past k = some (crc32c [5]) ∧ ¬ deleteCommitted past k)
        | _ => none) = some true := by decide +kernel
  obtain ⟨n, hn, heq⟩ := bind_eq_some_iff.mp hend
  cases n with
  | down disk past =>
    obtain ⟨s, hnew, hfound⟩ := acknowledged_writes_survive _ _ _ hmeets disk past hn clock
      clock_quiet 0
    have hpast := all_eq_true.mp (Option.some.inj heq)
    refine ⟨disk, past, hn, s, hnew, fun k hk => ?_⟩
    obtain ⟨hlast, hkept⟩ := of_decide_eq_true (hpast k hk)
    exact hfound k _ hlast hkept
  | _ => simp at heq

open SampleNode in
/--
The second write rotates to a new segment: after the crash only the highest segment is
replayed, and the extent of the sealed one is lost although its write was acknowledged.
-/
theorem sealed_segment_lost :
    ((Guarded.run (step SampleMachine.codec (config 200)) (.reopen clock 0 :: written)
      fresh).bind fun n => match n with
        | .down disk past => match Store.new (config 200) clock 0 disk with
          | .ok s => some (lastWrite past (7, 1), decide (deleteCommitted past (7, 1)),
              s.lookup (7, 1), (s.lookup (8, 1)).map Value.checksum)
          | .error _ => none
        | _ => none) =
      some (some (crc32c [5]), false, none, some (crc32c [5])) := by
  decide +kernel

end Node

end Nufs.Storage
