/-
Which stripe a chunk is served from, and which shards may be reclaimed.

All chunks of one allocation share one group, and the group names the stripe a direct
write is recorded under.  The verdict on the shards of a chunk is taken from the first
stripe with the chunk's number; as long as a direct write is not recorded there is none.
-/
import Nufs.Metadata.EcLifecycle

namespace Nufs.Ec

open Nufs.Metadata Nufs.Chunks List

/-! ### Rows -/

namespace Stripes

variable {stripes : Stripes}

theorem get_put (st : ECStripe) (id : List Char) :
    (stripes.put st).get id = if st.stripeID = id then some st else stripes.get id := by
  rw [get, put]
  by_cases h : st.stripeID = id
  · simp [h]
  rw [if_neg h, List.find?_cons_of_neg (by simpa using h), get, List.find?_filter]
  congr 1
  funext old
  by_cases hold : old.stripeID = id
  · simp [hold, Ne.symm h]
  · simp [hold]

theorem stripeID_of_get {id : List Char} {st : ECStripe} (h : stripes.get id = some st) :
    st.stripeID = id := by
  simpa using List.find?_some h

end Stripes

variable {reg : Registry} {id : ChunkID}

/-- What `RecordDirect` has done when it succeeds. -/
theorem recordDirect_ok {reg' : Registry} {shards : List ECShard} {checksum : UInt32} {now : Time}
    (h : (reg.recordDirect id shards checksum now).1 = .ok reg') :
    ∃ chunk group st, reg.chunks id = some chunk ∧ chunk.ecGroup = some group ∧
      group.groupID ≠ [] ∧ st.stripeID = group.groupID ∧ st.extentID = id ∧
      st.originalChecksum = checksum ∧ st.shards = shards ∧ st.state = .complete ∧
      reg'.stripes = reg.stripes.put st ∧ reg'.chunks = Function.update reg.chunks chunk.id
        (some { chunk with state := .ready, checksum, ecStripeID := group.groupID }) := by
  have hlive : ∀ chunk st, (reg.putStripe st).updateLiveChunk chunk
        { chunk with state := .ready, checksum, ecStripeID := st.stripeID } = .ok reg' →
      reg'.stripes = reg.stripes.put st ∧ reg'.chunks = Function.update reg.chunks chunk.id
        (some { chunk with state := .ready, checksum, ecStripeID := st.stripeID }) := by
    intro chunk st hupdate
    rw [Registry.updateLiveChunk] at hupdate
    split_ifs at hupdate with hzero hrow
    cases hupdate
    exact ⟨rfl, rfl⟩
  rw [Registry.recordDirect, Registry.directStripe] at h
  cases hchunk : reg.chunks id with
  | none => simp [hchunk] at h
  | some chunk =>
    cases hgroup : chunk.ecGroup with
    | none => simp [hchunk, hgroup] at h
    | some group =>
      by_cases hname : group.groupID = []
      · simp [hchunk, hgroup, hname] at h
      cases hplan : checkPlan shards chunk.replicas with
      | some e => simp [hchunk, hgroup, hname, hplan] at h
      | none =>
        simp only [hchunk, hgroup, if_neg hname, hplan] at h
        cases hold : reg.stripes.get group.groupID with
        | none =>
          simp only [hold] at h
          obtain ⟨hstripes, hrows⟩ := hlive _ _ h
          exact ⟨chunk, group, _, rfl, hgroup, hname, rfl, rfl, rfl, rfl, rfl, hstripes, hrows⟩
        | some old =>
          by_cases hstate : old.state = .complete
          · simp only [hold, if_pos hstate] at h
            obtain ⟨hstripes, hrows⟩ := hlive _ _ h
            exact ⟨chunk, group, _, rfl, hgroup, hname, rfl, rfl, rfl, rfl, rfl, hstripes, hrows⟩
          · simp [hold, hstate] at h

/-! ### Names of groups -/

theorem decimal_injective {a b : UInt64} (h : decimal a = decimal b) : a = b := by
  have := congrArg (Nat.ofDigitChars 10 · 0) h
  simp only [decimal, Nat.ofDigitChars_ten_toDigits] at this
  exact UInt64.toNat_inj.mp this

theorem first_eq_of_groupID {a b : ChunkID} {as bs : List ChunkID}
    (h : groupID a as = groupID b bs) : a = b := by
  -- A name with `batch` in it goes on with a letter, the other with a digit.
  have hclash : ∀ x y : ChunkID, "ec-".toList ++ decimal x ≠ "ec-batch-".toList ++ decimal y := by
    intro x y heq
    have htail : decimal x = 'b' :: ("atch-".toList ++ decimal y) := by simpa using heq
    have hdigit : ('b').isDigit = true := by
      refine Nat.isDigit_of_mem_toDigits (b := 10) (n := x.toNat) (by omega) (by omega) ?_
      show 'b' ∈ decimal x
      rw [htail]
      exact .head _
    simp at hdigit
  rw [groupID, groupID] at h
  split_ifs at h with ha hb hb
  · exact decimal_injective (append_cancel_left h)
  · exact absurd h (hclash a b)
  · exact absurd h.symm (hclash b a)
  · exact decimal_injective (append_cancel_left h)

theorem groupID_ne_nil (a : ChunkID) (as : List ChunkID) : groupID a as ≠ [] := by
  rw [groupID]
  split_ifs <;> simp

/-! ### Histories of allocations and direct writes -/

/-- A call of a history, each of them successful. -/
inductive DirectCall
  | allocate (config : ECConfig) (first : ChunkID) (rest : List ChunkID)
      (place : ChunkID → List (NodeID × List Char))
  | record (id : ChunkID) (shards : List ECShard) (checksum : UInt32) (now : Time)

/-- What a direct write was recorded with. -/
structure Written where
  id : ChunkID
  shards : List ECShard
  checksum : UInt32

/-- The registry, with the allocations and the recorded writes so far, the newest first. -/
structure History where
  reg : Registry
  allocations : List (ChunkID × List ChunkID)
  written : List Written

/-- The numbers an allocation gave out. -/
def idsOf (allocation : ChunkID × List ChunkID) : List ChunkID := allocation.1 :: allocation.2

/-- A successful call; nothing, if the call fails. -/
def History.step (h : History) : DirectCall → Option History
  | .allocate config first rest place =>
    (h.reg.allocate (buildAllocatedChunks config first rest place)).toOption.map fun reg =>
      { h with reg, allocations := (first, rest) :: h.allocations }
  | .record id shards checksum now =>
    (h.reg.recordDirect id shards checksum now).1.toOption.map fun reg =>
      { h with reg, written := ⟨id, shards, checksum⟩ :: h.written }

/-- The row of a chunk resolves to a stripe that is the one of this write. -/
def Registry.Resolves (reg : Registry) (w : Written) : Prop :=
  ∃ chunk st, reg.chunks w.id = some chunk ∧ reg.stripes.get chunk.ecStripeID = some st ∧
    st.extentID = w.id ∧ st.originalChecksum = w.checksum ∧ st.shards = w.shards ∧
    reg.resolveStripeLanding chunk = .ok (some w.shards)

/-- The last write of a chunk. -/
def History.lastWrite (h : History) (id : ChunkID) : Option Written :=
  h.written.find? fun w => w.id = id

/-- What holds along a history: rows belong to the allocations that made them, and the
stripe of an allocation is the last write of any of its chunks. -/
structure History.Sound (h : History) : Prop where
  row : ∀ id chunk, h.reg.chunks id = some chunk → chunk.id = id ∧
    ∃ a ∈ h.allocations, id ∈ idsOf a ∧
      chunk.ecGroup.map ECGroupInfo.groupID = some (groupID a.1 a.2)
  allocated : ∀ a ∈ h.allocations, (idsOf a).Nodup ∧ ∀ id ∈ idsOf a, (h.reg.chunks id).isSome
  apart : ∀ a ∈ h.allocations, ∀ b ∈ h.allocations, ∀ id, id ∈ idsOf a → id ∈ idsOf b → a = b
  published : ∀ w ∈ h.written, ∃ chunk, h.reg.chunks w.id = some chunk ∧
    chunk.ecGroup.map ECGroupInfo.groupID = some chunk.ecStripeID
  stripe : ∀ a ∈ h.allocations, ∀ w, (h.written.find? fun w => w.id ∈ idsOf a) = some w →
    ∃ st, h.reg.stripes.get (groupID a.1 a.2) = some st ∧ st.extentID = w.id ∧
      st.originalChecksum = w.checksum ∧ st.shards = w.shards

namespace History.Sound

variable {h h' : History}

theorem eq_of_groupID (hs : h.Sound) {a b : ChunkID × List ChunkID} (ha : a ∈ h.allocations)
    (hb : b ∈ h.allocations) (hname : groupID a.1 a.2 = groupID b.1 b.2) : a = b := by
  have hfirst := first_eq_of_groupID hname
  exact hs.apart a ha b hb a.1 (.head _) (hfirst ▸ (.head _))

theorem allocate (hs : h.Sound) {config : ECConfig} {first : ChunkID} {rest : List ChunkID}
    {place : ChunkID → List (NodeID × List Char)}
    (hstep : h.step (.allocate config first rest place) = some h') : h'.Sound := by
  obtain ⟨reg, hreg, rfl⟩ := Option.map_eq_some_iff.mp hstep
  rw [Registry.allocate] at hreg
  split_ifs at hreg with hnew
  · obtain rfl := Option.some.inj hreg
    set chunks := buildAllocatedChunks config first rest place with hchunks
    have hids : chunks.map ChunkMeta.id = idsOf (first, rest) := by
      simp [hchunks, buildAllocatedChunks, idsOf, Function.comp_def]
    have hmem : ∀ id, (∃ c ∈ chunks, c.id = id) ↔ id ∈ idsOf (first, rest) := by
      intro id
      rw [← hids, mem_map]
    have hfresh : ∀ id ∈ idsOf (first, rest), h.reg.chunks id = none := by
      intro id hid
      obtain ⟨c, hc, rfl⟩ := (hmem id).mpr hid
      exact (hnew.1 c hc).2.1
    have hnone : ∀ id, id ∉ idsOf (first, rest) → (chunks.find? fun c => c.id = id) = none := by
      intro id hid
      rw [List.find?_eq_none]
      intro c hc
      have : c.id ≠ id := fun heq => hid ((hmem id).mp ⟨c, hc, heq⟩)
      simpa using this
    have hold : ∀ id chunk, h.reg.chunks id = some chunk →
        ((chunks.find? fun c => c.id = id).or (h.reg.chunks id)) = some chunk := by
      intro id chunk hchunk
      rw [hnone id fun hid => by simp [hfresh id hid] at hchunk]
      simpa using hchunk
    have hwritten : ∀ w ∈ h.written, w.id ∉ idsOf (first, rest) := by
      intro w hw hid
      obtain ⟨chunk, hchunk, -⟩ := hs.published w hw
      simp [hfresh w.id hid] at hchunk
    refine ⟨fun id chunk hchunk => ?_, fun a ha => ?_, fun a ha b hb id hida hidb => ?_,
      fun w hw => ?_, fun a ha w hw => ?_⟩
    · simp only at hchunk
      cases hfind : chunks.find? fun c => c.id = id with
      | none =>
        rw [hfind, Option.none_or] at hchunk
        obtain ⟨hid, a, ha, hmem⟩ := hs.row id chunk hchunk
        exact ⟨hid, a, mem_cons_of_mem _ ha, hmem⟩
      | some c =>
        rw [hfind, Option.some_or] at hchunk
        obtain rfl := Option.some.inj hchunk
        have hid : c.id = id := by simpa using List.find?_some hfind
        have hc := List.mem_of_find?_eq_some hfind
        refine ⟨hid, (first, rest), mem_cons_self, (hmem id).mp ⟨c, hc, hid⟩, ?_⟩
        obtain ⟨i, -, rfl⟩ := mem_map.mp hc
        rfl
    · rcases mem_cons.mp ha with rfl | ha
      · refine ⟨hids ▸ hnew.2, fun id hid => ?_⟩
        obtain ⟨c, hc, hcid⟩ := (hmem id).mpr hid
        have : (chunks.find? fun c => c.id = id).isSome := by
          rw [List.find?_isSome]
          exact ⟨c, hc, by simpa using hcid⟩
        simp [this]
      · refine ⟨(hs.allocated a ha).1, fun id hid => ?_⟩
        obtain ⟨chunk, hchunk⟩ := Option.isSome_iff_exists.mp ((hs.allocated a ha).2 id hid)
        simp only [hold id chunk hchunk, Option.isSome_some]
    · have hnew' : ∀ c ∈ h.allocations, id ∈ idsOf c → id ∉ idsOf (first, rest) := by
        intro c hc hidc hid
        simpa [hfresh id hid] using (hs.allocated c hc).2 id hidc
      rcases mem_cons.mp ha with rfl | ha <;> rcases mem_cons.mp hb with rfl | hb
      · rfl
      · exact absurd hida (hnew' b hb hidb)
      · exact absurd hidb (hnew' a ha hida)
      · exact hs.apart a ha b hb id hida hidb
    · obtain ⟨chunk, hchunk, hgroup⟩ := hs.published w hw
      exact ⟨chunk, hold w.id chunk hchunk, hgroup⟩
    · rcases mem_cons.mp ha with rfl | ha
      · have hin : w.id ∈ idsOf (first, rest) := by simpa using List.find?_some hw
        exact absurd hin (hwritten w (List.mem_of_find?_eq_some hw))
      · exact hs.stripe a ha w hw
  · cases hreg

theorem record (hs : h.Sound) {shards : List ECShard} {checksum : UInt32}
    {now : Time} (hstep : h.step (.record id shards checksum now) = some h') : h'.Sound := by
  obtain ⟨reg, hreg, rfl⟩ := Option.map_eq_some_iff.mp hstep
  have hok : (h.reg.recordDirect id shards checksum now).1 = .ok reg := by
    cases hres : (h.reg.recordDirect id shards checksum now).1 with
    | error e => simp [hres, Except.toOption] at hreg
    | ok r => simpa [hres, Except.toOption] using hreg
  obtain ⟨chunk, group, st, hchunk, hgroup, -, hname, hext, hsum, hsh, -, hstripes, hrows⟩ :=
    recordDirect_ok hok
  obtain ⟨hid, a, ha, hmem, hga⟩ := hs.row id chunk hchunk
  have hgname : group.groupID = groupID a.1 a.2 := by simpa [hgroup] using hga
  have hrow : ∀ i, reg.chunks i = if i = id then
      some { chunk with state := .ready, checksum, ecStripeID := group.groupID }
      else h.reg.chunks i := by
    intro i
    rw [hrows, hid, Function.update_apply]
  refine ⟨fun i c hc => ?_, fun b hb => ⟨(hs.allocated b hb).1, fun i hmemb => ?_⟩, hs.apart,
    fun w hw => ?_, fun b hb w hw => ?_⟩
  · simp only [hrow] at hc
    split_ifs at hc with hi
    · cases hc
      subst hi
      exact ⟨hid, a, ha, hmem, hga⟩
    · exact hs.row i c hc
  · simp only [hrow]
    split_ifs with hi
    · rfl
    · exact (hs.allocated b hb).2 i hmemb
  · simp only [hrow]
    split_ifs with hi
    · exact ⟨_, rfl, by simp [hgroup]⟩
    · rcases mem_cons.mp hw with rfl | hw
      · exact absurd rfl hi
      · exact hs.published w hw
  rw [hstripes, Stripes.get_put, hname, hgname]
  by_cases hab : b = a
  · subst hab
    rw [List.find?_cons_of_pos (by simpa using hmem)] at hw
    cases hw
    exact ⟨st, if_pos rfl, hext, hsum, hsh⟩
  · rw [if_neg fun heq => hab (hs.eq_of_groupID ha hb heq).symm]
    have hnot : id ∉ idsOf b := fun hi => hab (hs.apart b hb a ha id hi hmem)
    rw [List.find?_cons_of_neg (by simpa using hnot)] at hw
    exact hs.stripe b hb w hw

/-- What the row of a recorded chunk resolves to: the last write of its allocation. -/
theorem resolves_iff (hs : h.Sound) {a : ChunkID × List ChunkID} (ha : a ∈ h.allocations)
    {w last : Written} (hw : w ∈ h.written) (hid : w.id ∈ idsOf a)
    (hlast : (h.written.find? fun w => w.id ∈ idsOf a) = some last) :
    h.reg.Resolves w ↔ last.id = w.id ∧ last.checksum = w.checksum ∧ last.shards = w.shards := by
  obtain ⟨chunk, hchunk, hown⟩ := hs.published w hw
  obtain ⟨-, b, hb, hidb, hgroup⟩ := hs.row w.id chunk hchunk
  obtain rfl := hs.apart a ha b hb w.id hid hidb
  have hname : chunk.ecStripeID = groupID a.1 a.2 := Option.some.inj (hown.symm.trans hgroup)
  obtain ⟨st, hst, hext, hsum, hsh⟩ := hs.stripe a ha last hlast
  have hresolve : h.reg.resolveStripeLanding chunk = .ok (some last.shards) := by
    simp only [Registry.resolveStripeLanding, hname, ne_eq, groupID_ne_nil, not_false_eq_true,
      if_true, if_false, hst, hsh]
  constructor
  · rintro ⟨chunk', st', hchunk', hst', hext', hsum', hsh', -⟩
    obtain rfl := Option.some.inj (hchunk.symm.trans hchunk')
    rw [hname, hst] at hst'
    cases hst'
    exact ⟨hext.symm.trans hext', hsum.symm.trans hsum', hsh.symm.trans hsh'⟩
  · rintro ⟨hi, hc, hsl⟩
    exact ⟨chunk, st, hchunk, by rw [hname, hst], hext.trans hi, hsum.trans hc, hsh.trans hsl,
      hsl ▸ hresolve⟩

end History.Sound

/-- A registry without chunks; what stripes and tombstones it has does not matter. -/
def History.Start (h : History) : Prop :=
  (∀ id, h.reg.chunks id = none) ∧ h.allocations = [] ∧ h.written = []

/--
**A stripe of its own.**  In every history of allocations and direct writes, once a write is
recorded for each chunk of an allocation, every chunk resolves to its own last write exactly
if the allocation was for a single chunk.
-/
theorem direct_stripes_own_iff {start h : History} {calls : List DirectCall}
    (hstart : start.Start) (hrun : Guarded.run History.step calls start = some h)
    {a : ChunkID × List ChunkID} (ha : a ∈ h.allocations)
    (hall : ∀ id ∈ idsOf a, (h.lastWrite id).isSome) :
    (∀ id ∈ idsOf a, ∀ w, h.lastWrite id = some w → h.reg.Resolves w) ↔ (idsOf a).length = 1 := by
  have hsound : h.Sound := by
    have hmeets : Guarded.Meets History.step (fun _ _ => True) calls start :=
      Guarded.Meets.of_forall (fun _ _ => trivial) calls start
    refine Guarded.run_invariant ?_ ?_ hmeets hrun
    · intro h c h' hs _ hstep
      cases c with
      | allocate config first rest place => exact hs.allocate hstep
      | record id shards checksum now => exact hs.record hstep
    · obtain ⟨hrows, hallocs, hwritten⟩ := hstart
      refine ⟨fun id chunk hchunk => ?_, ?_, ?_, ?_, ?_⟩
      · simp [hrows] at hchunk
      all_goals simp [hallocs, hwritten]
  have hmem : ∀ id w, h.lastWrite id = some w → w ∈ h.written ∧ w.id = id := by
    intro id w hw
    exact ⟨List.mem_of_find?_eq_some hw, by simpa using List.find?_some hw⟩
  obtain ⟨w0, hw0⟩ := Option.isSome_iff_exists.mp (hall a.1 (.head _))
  obtain ⟨last, hlast⟩ : ∃ last, (h.written.find? fun w => w.id ∈ idsOf a) = some last := by
    rw [← Option.isSome_iff_exists, List.find?_isSome]
    exact ⟨w0, (hmem _ _ hw0).1, by simp [(hmem _ _ hw0).2, idsOf]⟩
  constructor
  · intro hres
    -- Every chunk of the allocation is the one written last.
    have hsame : ∀ id ∈ idsOf a, id = last.id := by
      intro id hid
      obtain ⟨w, hw⟩ := Option.isSome_iff_exists.mp (hall id hid)
      obtain ⟨hwmem, rfl⟩ := hmem id w hw
      exact ((hsound.resolves_iff ha hwmem hid hlast).mp (hres w.id hid w hw)).1.symm
    have hnodup := (hsound.allocated a ha).1
    obtain ⟨first, rest⟩ := a
    cases rest with
    | nil => rfl
    | cons id rest =>
      have hfirst := hsame first mem_cons_self
      have hid := hsame id (.tail _ (.head _))
      simp [idsOf, hfirst, hid] at hnodup
  · intro hone id hid w hw
    obtain ⟨hwmem, rfl⟩ := hmem id w hw
    have hids : idsOf a = [w.id] := by
      obtain ⟨x, hx⟩ := length_eq_one_iff.mp hone
      rw [hx] at hid ⊢
      rw [mem_singleton.mp hid]
    have hw' : (h.written.find? fun w => w.id ∈ idsOf a) = some w := by
      rw [← hw, History.lastWrite, hids]
      simp
    exact (hsound.resolves_iff ha hwmem hid hw').mpr ⟨rfl, rfl, rfl⟩

def Stripes.empty : Stripes := ⟨[], nodup_nil⟩

/-- A registry without rows. -/
def emptyHistory : History := ⟨⟨Stripes.empty, fun _ => none, fun _ => false⟩, [], []⟩

/-- Where every replica of these examples goes. -/
def onNodeOne (_ : ChunkID) : List (NodeID × List Char) := [(1, ['a'])]

/-- A write of one chunk that was allocated alone. -/
def singleWrite : List DirectCall :=
  [.allocate ⟨1, 0⟩ 7 [] onNodeOne, .record 7 [{ index := 0, nodeID := 1, diskID := 1000 }] 70 1]

/-- Two chunks of one allocation, each written and recorded. -/
def batchWrite : List DirectCall :=
  [.allocate ⟨1, 0⟩ 7 [8] onNodeOne, .record 7 [{ index := 0, nodeID := 1, diskID := 1000 }] 70 1,
    .record 8 [{ index := 0, nodeID := 1, diskID := 1001 }] 80 2]

theorem direct_stripes_own_single : ∃ h, Guarded.run History.step singleWrite emptyHistory =
    some h ∧ ∀ id ∈ idsOf (7, []), ∀ w, h.lastWrite id = some w → h.reg.Resolves w := by
  obtain ⟨h, hrun⟩ : ∃ h, Guarded.run History.step singleWrite emptyHistory = some h := ⟨_, rfl⟩
  have hseen : (Guarded.run History.step singleWrite emptyHistory).map
      (fun h => (h.allocations, (h.lastWrite 7).isSome)) = some ([(7, [])], true) := by decide
  simp only [hrun, Option.map_some, Option.some.injEq, Prod.mk.injEq] at hseen
  refine ⟨h, hrun, (direct_stripes_own_iff ⟨fun _ => rfl, rfl, rfl⟩ hrun ?_ ?_).mpr rfl⟩
  · rw [hseen.1]
    exact .head _
  · intro id hid
    rw [mem_singleton.mp hid]
    exact hseen.2

/-- The first of two chunks written in one batch resolves to the stripe of the second. -/
theorem batch_shares_stripe : ∃ h, Guarded.run History.step batchWrite emptyHistory = some h ∧
    ∃ w, h.lastWrite 7 = some w ∧ ¬ h.reg.Resolves w := by
  obtain ⟨h, hrun⟩ : ∃ h, Guarded.run History.step batchWrite emptyHistory = some h := ⟨_, rfl⟩
  have hseen : (Guarded.run History.step batchWrite emptyHistory).map (fun h =>
      ((h.lastWrite 7).map Written.id, ((h.reg.chunks 7).bind fun c =>
        h.reg.stripes.get c.ecStripeID).map ECStripe.extentID)) = some (some 7, some 8) := by
    decide
  simp only [hrun, Option.map_some, Option.some.injEq, Prod.mk.injEq] at hseen
  obtain ⟨w, hw, hid⟩ := Option.map_eq_some_iff.mp hseen.1
  refine ⟨h, hrun, w, hw, ?_⟩
  rintro ⟨chunk, st, hchunk, hst, hext, -⟩
  rw [hid] at hchunk hext
  rw [hchunk, Option.bind_some, hst, Option.map_some, hext] at hseen
  exact absurd hseen.2 (by decide)

/-! ### Verdicts on shards -/

/-- How far a direct write of a chunk is. -/
inductive WriteStage
  | allocated
  | pushing
  | recorded
  | abandoned
  deriving DecidableEq

/-- The rows at a stage of a direct write: before the write is recorded the chunk has a group
and no stripe, then they are what `RecordDirect` has made of rows kept under their numbers. -/
def WriteStage.At (reg : Registry) (id : ChunkID) : WriteStage → Prop
  | .allocated | .pushing => ∃ chunk group, reg.chunks id = some chunk ∧
      chunk.ecGroup = some group ∧ group.groupID ≠ [] ∧ chunk.ecStripeID = []
  | .recorded => ∃ (before : Registry) (shards : List ECShard) (checksum : UInt32) (now : Time),
      (∀ i chunk, before.chunks i = some chunk → chunk.id = i) ∧
      (before.recordDirect id shards checksum now).1 = .ok reg
  | .abandoned => True

/-- The stripe is not complete, in flight or rolled back after the cutoff. -/
def ECStripe.Settled (st : ECStripe) (cutoff : Time) : Prop :=
  st.state = .rolledBack ∧ st.rolledBackAt ≤ cutoff

/-- Every stripe of the chunk is settled. -/
def Registry.Settled (reg : Registry) (id : ChunkID) (cutoff : Time) : Prop :=
  ∀ st ∈ reg.stripes.rows, st.extentID = id → st.Settled cutoff

/-- What is asked of the verdict: shards are given up only where every stripe of the chunk
is settled and no direct write of a live chunk is under way. -/
def VerdictSafe (reg : Registry) (id : ChunkID) (olderThan now : Time) (stage : WriteStage) :
    Prop :=
  reg.isChunkShardsOrphaned id olderThan now = true →
    reg.Settled id (now - olderThan) ∧ ((reg.chunks id).isSome → stage = .abandoned)

theorem isChunkShardsOrphaned_iff {olderThan now : Time} :
    reg.isChunkShardsOrphaned id olderThan now = true ↔
      ¬ olderThan ≤ 0 ∧ reg.stripes.ownComplete (reg.chunks id) = false ∧
        ∀ st, reg.stripes.governing id = some st → st.Reclaimable (now - olderThan) := by
  rw [Registry.isChunkShardsOrphaned]
  by_cases hage : olderThan ≤ 0
  · simp [hage]
  · cases hown : reg.stripes.ownComplete (reg.chunks id) <;>
      cases hgov : reg.stripes.governing id <;> simp [hage, verdict]

/-- Once a direct write is recorded, the chunk names a complete stripe. -/
theorem ownComplete_of_recorded (h : WriteStage.recorded.At reg id) :
    reg.stripes.ownComplete (reg.chunks id) = true := by
  obtain ⟨before, shards, checksum, now, hkeyed, hok⟩ := h
  obtain ⟨chunk, group, st, hchunk, -, hname, hst, -, -, -, hcomplete, hstripes, hrows⟩ :=
    recordDirect_ok hok
  have hrow := congrFun hrows id
  rw [hkeyed id chunk hchunk, Function.update_self] at hrow
  simp [Stripes.ownComplete, hrow, hstripes, Stripes.get_put, hst, hname, hcomplete]

/--
**When the verdict is safe.**  For all rows, every age limit and every stage of a direct
write: exactly if the limit is not positive, the write is recorded, the chunk's own stripe
is complete, the first stripe of the chunk is not yet reclaimable, or every other stripe of
the chunk is settled and no direct write of the live chunk is under way.
-/
theorem orphan_verdict_safe_iff {reg : Registry} {id : ChunkID} {olderThan now : Time}
    {stage : WriteStage} (hstage : stage.At reg id) : VerdictSafe reg id olderThan now stage ↔
      (olderThan ≤ 0 ∨ stage = .recorded ∨ reg.stripes.ownComplete (reg.chunks id) = true ∨
        (∃ st, reg.stripes.governing id = some st ∧ ¬ st.Reclaimable (now - olderThan)) ∨
        (∀ st ∈ reg.stripes.rows, st.extentID = id → reg.stripes.governing id ≠ some st →
          st.Settled (now - olderThan)) ∧ ((reg.chunks id).isSome → stage = .abandoned)) := by
  rw [VerdictSafe, isChunkShardsOrphaned_iff]
  constructor
  · intro h
    by_contra hcond
    push Not at hcond
    obtain ⟨hage, -, hown, hgov, hsettled⟩ := hcond
    obtain ⟨hrows, hlive⟩ := h ⟨not_le.mpr hage, by simpa using hown, hgov⟩
    obtain ⟨hchunk, hstage⟩ := hsettled fun st hst hext _ => hrows st hst hext
    exact hstage (hlive hchunk)
  · rintro hcond ⟨hage, hown, hgov⟩
    rcases hcond with hle | rfl | htrue | ⟨st, hst, hnot⟩ | ⟨hrest, hlive⟩
    · exact absurd hle hage
    · rw [ownComplete_of_recorded hstage] at hown
      cases hown
    · rw [hown] at htrue
      cases htrue
    · exact absurd (hgov st hst) hnot
    · refine ⟨fun st hst hext => ?_, hlive⟩
      by_cases hfirst : reg.stripes.governing id = some st
      · obtain ⟨hstate, -, hat⟩ := hgov st hfirst
        exact ⟨hstate, hat⟩
      · exact hrest st hst hext hfirst

/-- Chunk 7, allocated for a direct write. -/
def allocatedRow : Registry :=
  { stripes := .empty
    chunks := fun id => (buildAllocatedChunks ⟨1, 0⟩ 7 [] onNodeOne).find? fun c => c.id = id
    tombstoned := fun _ => false }

/-- Two stripes of chunk 7: the first was rolled back, the second is complete. -/
def twoStripes : Registry :=
  { stripes := ⟨[⟨['a'], 7, 1, 0, [], .rolledBack, 0, 1⟩, ⟨['b'], 7, 1, 0, [], .complete, 5, 0⟩],
      by decide⟩
    chunks := fun _ => none
    tombstoned := fun _ => false }

/-- Chunk 7 while its shards are pushed, with two stripes that were rolled back, the first of
them not long ago. -/
def rolledBackStripes : Registry :=
  { allocatedRow with
    stripes := ⟨[⟨['a'], 7, 1, 0, [], .rolledBack, 0, 95⟩, ⟨['b'], 7, 1, 0, [], .rolledBack, 0, 1⟩],
      by decide⟩ }

theorem orphan_verdict_safe_pushing : WriteStage.pushing.At rolledBackStripes 7 ∧
    VerdictSafe rolledBackStripes 7 10 100 .pushing ∧
    ¬ VerdictSafe rolledBackStripes 7 10 200 .pushing := by
  have hstage : WriteStage.pushing.At rolledBackStripes 7 := ⟨_, _, rfl, rfl, by decide, rfl⟩
  refine ⟨hstage, ?_, ?_⟩
  · exact (orphan_verdict_safe_iff hstage).mpr (.inr (.inr (.inr (.inl ⟨_, rfl, by decide⟩))))
  · exact fun h => absurd ((h (by decide)).2 rfl) (by decide)

/-- Shards of a direct write that is still being pushed are given up, and so are those of a
complete stripe that is not the first of its chunk. -/
theorem orphan_verdict_unsafe : (WriteStage.pushing.At allocatedRow 7 ∧
      ¬ VerdictSafe allocatedRow 7 10 100 .pushing) ∧
    ¬ VerdictSafe twoStripes 7 10 100 .abandoned := by
  refine ⟨⟨⟨_, _, rfl, rfl, by decide, rfl⟩, fun h => ?_⟩, fun h => ?_⟩
  · cases (h (by decide)).2 rfl
  · have hcomplete := (h (by decide)).1 _ (.tail _ (.head _)) rfl
    cases hcomplete.1

end Nufs.Ec
