/-
What the change journal delivers.

The file is the encoding of the appended events, followed by what a process that died
left of one more.  Such a rest is never read as an event, so reading the file gives the
appended events.  An append keeps this only while the rest is empty: behind a rest the
new event is not found.
-/
import Nufs.Storage.ChangeJournal
import Nufs.Lib.Guarded

namespace Nufs.Storage

open Layout List

/-! ### The encoding of an event -/

namespace ChangeEvent

variable (ev : ChangeEvent)

@[simp] theorem length_fixedFields : (layout ev.fixedFields).length = 47 := by
  simp [fixedFields, length_layout, -layout_cons]

@[simp] theorem length_body : ev.body.length = 47 + ev.reason.length := by
  rw [body, length_append, length_fixedFields]

@[simp] theorem length_encodeEvent : (encodeEvent ev).length = eventSize ev := by
  simp only [encodeEvent, length_append, length_body, length_layout, width_cons, f32_fst,
    width_nil, eventSize]

/-- The reason fits the two bytes that carry its length. -/
def Fits : Prop := ev.reason.length < 2 ^ 16

variable {ev}

theorem decodeBody_body (h : ev.Fits) : decodeBody ev.body = ev := by
  have hu8 : u8At ev.body 4 = ev.kind.toByte := by
    rw [body, u8At_append_left _ _ (by simp)]
    exact u8At_layout rfl
  have hu64 : ∀ off x, off + 8 ≤ 47 → valueAt ev.fixedFields off 8 = some x.toNat →
      u64At ev.body off = x := by
    intro off x hoff hx
    rw [body, u64At_append_left _ _ (by simpa using hoff)]
    exact u64At_layout hx
  have hlen : fieldAt ev.body 45 2 = ev.reason.length := by
    rw [body, fieldAt_layout (show valueAt ev.fixedFields 45 2 = some ev.reason.length from rfl)]
    exact Nat.mod_eq_of_lt h
  have hdrop : ev.body.drop 47 = ev.reason := by
    rw [body, drop_append_of_le_length (by simp)]
    rw [drop_eq_nil_of_le (by simp), nil_append]
  have h37 : u64At ev.body 37 = ev.atUnix.toUInt64 := hu64 37 _ (by omega) rfl
  rw [decodeBody, hu8, hu64 5 ev.seq (by omega) rfl, hu64 13 ev.extentID (by omega) rfl,
    hu64 21 ev.generation (by omega) rfl, hu64 29 ev.segmentID (by omega) rfl, h37, hlen, hdrop,
    ChangeEventKind.ofByte_toByte]
  simp

theorem fieldAt_encodeEvent (h : ev.Fits) (rest : List UInt8) :
    fieldAt (encodeEvent ev ++ rest) 0 4 = 47 + ev.reason.length := by
  rw [encodeEvent, body, append_assoc, append_assoc,
    fieldAt_layout (show valueAt ev.fixedFields 0 4 = some (47 + ev.reason.length) from rfl)]
  refine Nat.mod_eq_of_lt ?_
  have : ev.reason.length < 2 ^ 16 := h
  omega

/-- An event is found in front of anything. -/
theorem reads (h : ev.Fits) : Stream.Reads decodeEvent encodeEvent ev := by
  intro rest
  have hlen : (encodeEvent ev ++ rest).length = 47 + ev.reason.length + 4 + rest.length := by
    rw [length_append, length_encodeEvent, eventSize]
  have hbody : (encodeEvent ev ++ rest).take (47 + ev.reason.length) = ev.body := by
    rw [encodeEvent, append_assoc, ← length_body, take_left]
  have hcrc : u32At (encodeEvent ev ++ rest) (47 + ev.reason.length) = crc32IEEE ev.body := by
    rw [encodeEvent, append_assoc, ← length_body]
    rw [show ev.body.length = ev.body.length + 0 from rfl, u32At_append_right,
      u32At_append_left _ _ (by simp)]
    exact u32At_layout rfl
  have hrest : (encodeEvent ev ++ rest).drop (47 + ev.reason.length + 4) = rest := by
    have : 47 + ev.reason.length + 4 = (encodeEvent ev).length := by
      rw [length_encodeEvent, eventSize]
    rw [this, drop_left]
  rw [decodeEvent, if_neg (by omega)]
  simp only [fieldAt_encodeEvent h rest]
  rw [if_neg (by omega), hbody, hcrc, if_neg (by simp), hrest, decodeBody_body h]

/-- What is left of an event that was not written to its end is not read. -/
theorem decodeEvent_take (h : ev.Fits) {k : Nat} (hk : k < (encodeEvent ev).length) :
    decodeEvent ((encodeEvent ev).take k) = none := by
  have hlen : ((encodeEvent ev).take k).length = k := length_take_of_le hk.le
  rw [length_encodeEvent, eventSize] at hk
  rw [decodeEvent, hlen]
  by_cases h8 : k < 8
  · exact if_pos h8
  rw [if_neg h8]
  have hfield : fieldAt ((encodeEvent ev).take k) 0 4 = 47 + ev.reason.length := by
    rw [fieldAt_take _ (by omega), ← fieldAt_encodeEvent h [], append_nil]
  simp only [hfield]
  exact if_pos (.inr (by omega))

theorem encodeEvent_ne_nil : encodeEvent ev ≠ [] := by
  refine ne_nil_of_length_pos ?_
  rw [length_encodeEvent, eventSize]
  omega

end ChangeEvent

/-! ### Files -/

/-- The bytes of a file that ends with its last event. -/
def encodeEvents (evs : List ChangeEvent) : List UInt8 := evs.flatMap encodeEvent

theorem encodeEvents_append (evs : List ChangeEvent) (ev : ChangeEvent) :
    encodeEvents (evs ++ [ev]) = encodeEvents evs ++ encodeEvent ev := by
  simp [encodeEvents]

theorem length_encodeEvents (evs : List ChangeEvent) :
    (encodeEvents evs).length = (evs.map eventSize).sum := by
  simp [encodeEvents, length_flatMap]

variable {evs : List ChangeEvent} {torn : List UInt8}

/-- Reading a file gives its events, whatever follows them that is not an event. -/
theorem decodeFile_encodeEvents (hfits : ∀ ev ∈ evs, ev.Fits) (htorn : decodeEvent torn = none) :
    decodeFile (encodeEvents evs ++ torn) = evs := by
  have hcount : evs.length ≤ (encodeEvents evs).length :=
    Stream.length_le_flatMap fun ev _ => ev.encodeEvent_ne_nil
  refine Stream.readAll_flatMap (fun ev hev => ChangeEvent.reads (hfits ev hev)) htorn ?_
  rw [length_append]
  omega

/-- The events that are read fill the file: it ends with the last of them. -/
def Filled (data : List UInt8) : Prop :=
  ((decodeFile data).map eventSize).sum = data.length

instance Filled.decidable (data : List UInt8) : Decidable (Filled data) :=
  inferInstanceAs (Decidable (_ = _))

theorem filled_iff (hfits : ∀ ev ∈ evs, ev.Fits) (htorn : decodeEvent torn = none) :
    Filled (encodeEvents evs ++ torn) ↔ torn = [] := by
  rw [Filled, decodeFile_encodeEvents hfits htorn, length_append, length_encodeEvents,
    ← length_eq_zero_iff]
  omega

/-! ### What is pending -/

namespace ChangeJournal

/-- The events above an acknowledged number. -/
def above (ack : UInt64) (evs : List ChangeEvent) : List ChangeEvent :=
  evs.filter fun ev => decide (ack < ev.seq)

variable {ack : UInt64} {ev : ChangeEvent}

theorem above_cons_of_le (evs : List ChangeEvent) (h : ev.seq ≤ ack) :
    above ack (ev :: evs) = above ack evs :=
  filter_cons_of_neg (by simpa using h)

theorem above_cons_of_lt (evs : List ChangeEvent) (h : ¬ ev.seq ≤ ack) :
    above ack (ev :: evs) = ev :: above ack evs :=
  filter_cons_of_pos (by simpa using h)

/--
**The loop of `Pending`** adds a front part of the events above the acknowledged number:
not the empty one if a limit is left and there is something to add, and all of it if the
limits leave room for all.
-/
theorem collect_spec (ack : UInt64) (maxEvents maxBytes : Int) (evs out : List ChangeEvent)
    (sent : Nat) :
    ∃ added, collect ack maxEvents maxBytes evs out sent = out ++ added ∧ added <+: above ack evs ∧
      ((out.length : Int) < maxEvents → (sent : Int) < maxBytes → added = [] → above ack evs = []) ∧
      ((out.length + (above ack evs).length : Int) ≤ maxEvents →
        (sent + ((above ack evs).map eventSize).sum : Int) ≤ maxBytes → added = above ack evs) := by
  induction evs generalizing out sent with
  | nil => exact ⟨[], by simp [collect], nil_prefix, fun _ _ _ => rfl, fun _ _ => rfl⟩
  | cons ev evs ih =>
    by_cases hack : ev.seq ≤ ack
    · rw [collect, if_pos hack, above_cons_of_le evs hack]
      exact ih out sent
    rw [collect, if_neg hack, above_cons_of_lt evs hack]
    split_ifs
    · refine ⟨[], (append_nil out).symm, nil_prefix, ?_, ?_⟩
      · intro hevents hbytes
        omega
      · intro hevents hbytes
        have hpos : 0 < eventSize ev := by
          rw [eventSize]
          omega
        simp only [length_cons, map_cons, sum_cons] at hevents hbytes
        omega
    · obtain ⟨added, heq, hfront, -, hall⟩ := ih (out ++ [ev]) (sent + eventSize ev)
      refine ⟨ev :: added, ?_, ?_, ?_, ?_⟩
      · rw [heq, append_assoc]
        rfl
      · exact cons_prefix_cons.mpr ⟨rfl, hfront⟩
      · intro _ _ hnil
        exact absurd hnil (cons_ne_nil ev added)
      intro hevents hbytes
      simp only [length_cons, map_cons, sum_cons] at hevents hbytes
      have hcount : ((out ++ [ev]).length : Int) = out.length + 1 := by
        rw [length_append, length_singleton, Nat.cast_add, Nat.cast_one]
      have hsent : ((sent + eventSize ev : Nat) : Int) = sent + eventSize ev := Nat.cast_add _ _
      rw [hall (by omega) (by omega)]

/-! ### Opening -/

theorem le_largest (ns : List UInt64) : ∀ n ∈ ns, n ≤ largest ns := by
  have hfold : ∀ (ns : List UInt64) (m : UInt64),
      let r := ns.foldl (fun m n => if m < n then n else m) m
      m ≤ r ∧ ∀ n ∈ ns, n ≤ r := by
    intro ns
    induction ns with
    | nil =>
      intro m
      exact ⟨UInt64.le_refl m, by simp⟩
    | cons n ns ih =>
      intro m
      obtain ⟨hm, hns⟩ := ih (if m < n then n else m)
      have hmax : m ≤ (if m < n then n else m) ∧ n ≤ (if m < n then n else m) := by
        split_ifs with h
        · exact ⟨UInt64.le_of_lt h, UInt64.le_refl n⟩
        · exact ⟨UInt64.le_refl m, UInt64.not_lt.mp h⟩
      exact ⟨UInt64.le_trans hmax.1 hm, forall_mem_cons.mpr ⟨UInt64.le_trans hmax.2 hm, hns⟩⟩
  exact (hfold ns 0).2

end ChangeJournal

/-! ### Every life -/

namespace JournalLife

open ChangeJournal

/--
What the callers of a journal rely on: numbers increase, and `Pending` returns the
appended events above the acknowledged number, each once and in order, as far as its
limits allow.
-/
structure Delivers (s : JournalLife) : Prop where
  increasing : s.appended.Pairwise fun a b => a.seq < b.seq
  ack_le : ∀ j, s.journal = some j → j.ack ≤ s.lastAck
  front : ∀ j, s.journal = some j → ∀ maxEvents maxBytes,
    (j.pending s.dir maxEvents maxBytes).1 <+: above j.ack s.appended
  progress : ∀ j, s.journal = some j → ∀ maxEvents maxBytes, 0 < maxEvents → 0 < maxBytes →
    (j.pending s.dir maxEvents maxBytes).1 = [] → above j.ack s.appended = []
  all : ∀ j, s.journal = some j → ∀ maxEvents maxBytes,
    ((above j.ack s.appended).length : Int) ≤ maxEvents →
    (((above j.ack s.appended).map eventSize).sum : Int) ≤ maxBytes →
    (j.pending s.dir maxEvents maxBytes).1 = above j.ack s.appended

/-- The events are in one file, with what a process that died left behind them. -/
structure Holds (s : JournalLife) : Prop where
  fits : ∀ ev ∈ s.appended, ev.Fits
  increasing : s.appended.Pairwise fun a b => a.seq < b.seq
  written : s.dir = [] ∧ s.appended = [] ∨
    ∃ gen torn, s.dir = [⟨gen, encodeEvents s.appended ++ torn⟩] ∧ decodeEvent torn = none
  opened : ∀ j, s.journal = some j →
    (∃ data, s.dir = [⟨j.file, data⟩]) ∧ (∀ ev ∈ s.appended, ev.seq ≤ j.seq) ∧ j.ack ≤ s.lastAck

/--
An event is written where the last one ends, its reason fits, and a number is left for
it.
-/
def KeepsEvents (s : JournalLife) : JournalCall → Prop
  | .append c | .dieInAppend c _ =>
    (∀ f ∈ s.dir.getLast?, Filled f.data) ∧ c.reason.length < 2 ^ 16 ∧
      ∀ j ∈ s.journal, j.seq.toNat + 1 < 2 ^ 64
  | _ => True

namespace Holds

variable {s : JournalLife}

theorem empty : JournalLife.empty.Holds where
  fits := by simp [JournalLife.empty]
  increasing := .nil
  written := .inl ⟨rfl, rfl⟩
  opened := by simp [JournalLife.empty]

/-- The directory reads as the appended events. -/
theorem events (h : s.Holds) : s.dir.events = s.appended := by
  rcases h.written with ⟨hdir, hnone⟩ | ⟨gen, torn, hdir, htorn⟩
  · rw [hdir, hnone]
    rfl
  · rw [hdir, ChangeDir.events, flatMap_singleton]
    exact decodeFile_encodeEvents h.fits htorn

theorem delivers (h : s.Holds) : s.Delivers := by
  have hpending : ∀ (j : ChangeJournal) maxEvents maxBytes,
      (j.pending s.dir maxEvents maxBytes).1 =
        collect j.ack maxEvents maxBytes s.appended [] 0 := by
    intro j maxEvents maxBytes
    rw [pending, h.events]
  refine ⟨h.increasing, fun j hj => (h.opened j hj).2.2, ?_, ?_, ?_⟩
  all_goals
    intro j _ maxEvents maxBytes
    obtain ⟨added, heq, hfront, hprogress, hall⟩ :=
      collect_spec j.ack maxEvents maxBytes s.appended [] 0
    rw [hpending, heq]
  · exact hfront
  · simpa using hprogress
  · simpa using hall

variable {j : ChangeJournal}

/-- The file of an open journal, where an event may be written. -/
theorem file (h : s.Holds) (hj : s.journal = some j)
    (hfilled : ∀ f ∈ s.dir.getLast?, Filled f.data) :
    s.dir = [⟨j.file, encodeEvents s.appended⟩] := by
  obtain ⟨⟨data, hdata⟩, -, -⟩ := h.opened j hj
  rcases h.written with ⟨hdir, -⟩ | ⟨gen, torn, hdir, htorn⟩
  · simp [hdir] at hdata
  · obtain rfl : torn = [] := by
      refine (filled_iff h.fits htorn).mp (hfilled ⟨gen, _⟩ ?_)
      simp [hdir]
    obtain ⟨rfl, -⟩ : gen = j.file ∧ _ = data := by simpa [hdir] using hdata
    rw [hdir, append_nil]

theorem openJournal (h : s.Holds) (maxBytes : Int) : JournalLife.Holds { s with
      dir := (openChangeJournal s.dir maxBytes).2
      journal := some (openChangeJournal s.dir maxBytes).1 } := by
  have hseq : ∀ ev ∈ s.appended, ev.seq ≤ largest (s.dir.events.map (·.seq)) := by
    intro ev hev
    refine le_largest _ ev.seq (mem_map_of_mem ?_)
    rw [h.events]
    exact hev
  rcases h.written with ⟨hdir, hnone⟩ | ⟨gen, torn, hdir, htorn⟩
  · refine ⟨h.fits, h.increasing, .inr ?_, ?_⟩
    · refine ⟨1, [], ?_, by decide⟩
      simp [openChangeJournal, hdir, hnone, encodeEvents, largest]
    · intro j hj
      obtain rfl := (Option.some.inj hj).symm
      simp [openChangeJournal, hdir, hnone]
  refine ⟨h.fits, h.increasing, .inr ⟨gen, torn, ?_, htorn⟩, ?_⟩
  · simp [openChangeJournal, hdir]
  intro j hj
  obtain rfl := (Option.some.inj hj).symm
  simp only [openChangeJournal, hdir, List.getLast?_singleton]
  refine ⟨⟨_, rfl⟩, ?_, UInt64.zero_le⟩
  rw [← hdir]
  exact hseq

/-- Nothing but the journal's own numbers has changed. -/
theorem congr (h : s.Holds) {j' : ChangeJournal} (hj : s.journal = some j) (lastAck : UInt64)
    (hfile : j'.file = j.file) (hseq : j.seq ≤ j'.seq) (hack : j'.ack ≤ lastAck) :
    JournalLife.Holds { s with journal := some j', lastAck } := by
  obtain ⟨⟨data, hdata⟩, hle, -⟩ := h.opened j hj
  refine ⟨h.fits, h.increasing, h.written, ?_⟩
  intro j'' hj''
  cases hj''
  exact ⟨⟨data, hfile ▸ hdata⟩, fun ev hev => UInt64.le_trans (hle ev hev) hseq, hack⟩

/-- A process is gone, and has written no whole event. -/
theorem died (h : s.Holds) : JournalLife.Holds { s with journal := none } :=
  ⟨h.fits, h.increasing, h.written, by simp⟩

theorem seq_lt_next (hroom : j.seq.toNat + 1 < 2 ^ 64) (c : Change) :
    j.seq < (j.nextEvent c).seq := by
  rw [UInt64.lt_iff_toNat_lt, nextEvent, UInt64.toNat_add]
  have hone : (1 : UInt64).toNat = 1 := rfl
  omega

variable {c : Change}

theorem append (h : s.Holds) (hj : s.journal = some j) (hkeeps : s.KeepsEvents (.append c)) :
    (s.afterAppend j c).Holds := by
  obtain ⟨hfilled, hfits, hroom⟩ := hkeeps
  have hdir := h.file hj hfilled
  have hnext := seq_lt_next (hroom j hj) c
  obtain ⟨-, hle, hack⟩ := h.opened j hj
  have hlt : ∀ ev ∈ s.appended, ev.seq < (j.nextEvent c).seq :=
    fun ev hev => UInt64.lt_of_le_of_lt (hle ev hev) hnext
  unfold afterAppend ChangeJournal.append
  by_cases hover : j.overLimit (j.nextEvent c) = true
  · rw [if_pos hover]
    exact h.congr hj s.lastAck rfl (UInt64.le_of_lt hnext) hack
  rw [if_neg hover]
  have hwrite : s.dir.write j.file (encodeEvent (j.nextEvent c)) =
      [⟨j.file, encodeEvents (s.appended ++ [j.nextEvent c])⟩] := by
    rw [hdir, encodeEvents_append]
    simp [ChangeDir.write]
  refine ⟨?_, ?_, .inr ⟨j.file, [], ?_, by decide⟩, ?_⟩
  · exact forall_mem_append.mpr ⟨h.fits, forall_mem_singleton.mpr hfits⟩
  · refine pairwise_append.mpr ⟨h.increasing, pairwise_singleton _ _, ?_⟩
    intro ev hev ev' hev'
    obtain rfl := mem_singleton.mp hev'
    exact hlt ev hev
  · rw [append_nil]
    exact hwrite
  intro j' hj'
  obtain rfl := (Option.some.inj hj').symm
  exact ⟨⟨_, hwrite⟩, forall_mem_append.mpr ⟨fun ev hev => UInt64.le_of_lt (hlt ev hev),
    forall_mem_singleton.mpr (UInt64.le_refl _)⟩, hack⟩

theorem dieInAppend (h : s.Holds) (hj : s.journal = some j) {k : Nat}
    (hkeeps : s.KeepsEvents (.dieInAppend c k)) (hk : k < (encodeEvent (j.nextEvent c)).length) :
    JournalLife.Holds { s with dir := j.cutAppend s.dir c k, journal := none } := by
  obtain ⟨hfilled, hfits, -⟩ := hkeeps
  unfold cutAppend
  by_cases hover : j.overLimit (j.nextEvent c) = true
  · rw [if_pos hover]
    exact h.died
  · rw [if_neg hover]
    refine ⟨h.fits, h.increasing, .inr ?_, by simp⟩
    refine ⟨j.file, (encodeEvent (j.nextEvent c)).take k, ?_, ?_⟩
    · simp [ChangeDir.write, h.file hj hfilled]
    · exact ChangeEvent.decodeEvent_take (show (j.nextEvent c).Fits from hfits) hk

theorem step {call : JournalCall} {s' : JournalLife} (h : s.Holds) (hkeeps : s.KeepsEvents call)
    (hstep : s.step call = some s') : s'.Holds := by
  cases call with
  | openJournal maxBytes =>
    cases hj : s.journal with
    | some j => simp [JournalLife.step, hj] at hstep
    | none =>
      obtain rfl : _ = s' := by simpa [JournalLife.step, hj] using hstep
      exact h.openJournal maxBytes
  | append c =>
    obtain ⟨j, hj, rfl⟩ := Option.map_eq_some_iff.mp hstep
    exact h.append hj hkeeps
  | dieInAppend c k =>
    obtain ⟨j, hj, hcut⟩ := Option.bind_eq_some_iff.mp hstep
    split_ifs at hcut with hk
    cases hcut
    exact h.dieInAppend hj hkeeps hk
  | ack seq =>
    obtain ⟨j, hj, rfl⟩ := Option.map_eq_some_iff.mp hstep
    obtain ⟨-, -, hack⟩ := h.opened j hj
    have hfile : (j.acknowledge seq).file = j.file ∧ (j.acknowledge seq).seq = j.seq := by
      unfold acknowledge
      split_ifs <;> exact ⟨rfl, rfl⟩
    refine h.congr hj _ hfile.1 (hfile.2 ▸ UInt64.le_refl _) ?_
    unfold acknowledge
    split_ifs with h1 h2 h2
    · exact UInt64.le_refl seq
    · exact UInt64.not_lt.mp h2
    · exact UInt64.le_trans hack (UInt64.le_of_lt h2)
    · exact hack
  | closeJournal =>
    obtain ⟨j, hj, rfl⟩ := Option.map_eq_some_iff.mp hstep
    exact h.died

end Holds

/--
**Delivery.**  Every life of a journal in which events are written only where the last
one ends delivers the events that were appended.
-/
theorem journal_delivers (calls : List JournalCall) (s : JournalLife)
    (hkeeps : Guarded.Meets step KeepsEvents calls empty)
    (hrun : Guarded.run step calls empty = some s) : s.Delivers :=
  (Guarded.run_invariant (fun _ _ _ h hk hs => .step h hk hs) Holds.empty hkeeps hrun).delivers

/-- A finding without a reason. -/
def sampleChange : Change where
  kind := .scrubFinding
  extentID := 7
  generation := 1
  segmentID := 3
  reason := []
  now := 5

instance KeepsEvents.decidable (s : JournalLife) : ∀ call, Decidable (s.KeepsEvents call)
  | .append _ | .dieInAppend _ _ => inferInstanceAs (Decidable (_ ∧ _ ∧ _))
  | .openJournal _ | .ack _ | .closeJournal => isTrue trivial

/-- An event is appended, a process dies in the next append, and the journal is opened again. -/
def sampleCalls : List JournalCall :=
  [.openJournal 0, .append sampleChange, .dieInAppend sampleChange 1, .openJournal 0]

theorem journal_delivers_torn : ∃ s, Guarded.run step sampleCalls empty = some s ∧ s.Delivers ∧
    s.appended.map (·.seq) = [1] := by
  obtain ⟨s, hs⟩ : ∃ s, Guarded.run step sampleCalls empty = some s ∧
      s.appended.map (·.seq) = [1] := by
    refine ⟨(Guarded.run step sampleCalls empty).get (by decide +kernel), by simp, ?_⟩
    decide +kernel
  exact ⟨s, hs.1, journal_delivers sampleCalls s (by decide +kernel) hs.1, hs.2⟩

/-- The events a run leaves pending, with no limit that matters. -/
def pendingSeqs (s : JournalLife) : Option (List UInt64) :=
  s.journal.map fun j => (j.pending s.dir 100 100000).1.map (·.seq)

/--
An append behind the byte of a torn one succeeds and is not pending, and after the next
opening its number is given again.
-/
theorem journal_loses_event :
    ((Guarded.run step (sampleCalls ++ [.append sampleChange]) empty).map fun s =>
      (s.appended.map (·.seq), s.pendingSeqs)) = some ([1, 2], some [1]) ∧
    ((Guarded.run step (sampleCalls ++ [.append sampleChange, .closeJournal, .openJournal 0,
      .append sampleChange]) empty).map fun s => s.appended.map (·.seq)) = some [1, 2, 2] := by
  decide +kernel

end JournalLife

end Nufs.Storage
