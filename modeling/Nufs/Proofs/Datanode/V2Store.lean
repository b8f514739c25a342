/-
What each call of the datanode store does to its segment stores.

A store is named by its place, a stream and a disk.  Every call is described by the
stores and the location map it leaves: a call that fails leaves both as they were, a
write puts one extent into the store it is routed to, a move copies one, and no call
touches the extents of another chunk.  Accounting never shows in these descriptions.
-/
import Nufs.Datanode.V2Store

namespace Nufs.Datanode

open Nufs.Storage List AList SegmentStore Function

/-- A stream (the small one or not) of a disk. -/
abbrev Place := Bool × Nat

/-- The place of a location. -/
def ChunkLoc.place (loc : ChunkLoc) : Place := (loc.small, loc.disk)

/-! ### Segment stores -/

theorem max_eq_ite (a b : UInt64) : max a b = if a ≤ b then b else a := rfl

instance uint64LawfulOrderMax : Std.LawfulOrderMax UInt64 where
  max_eq_or a b := by
    rw [max_eq_ite]
    split <;> simp
  max_le_iff a b c := by
    rw [max_eq_ite]
    simp only [UInt64.le_iff_toNat_le]
    split <;> omega

namespace SegmentStore

variable {s s' : SegmentStore} {k k' : Key} {data : List UInt8}

/-- What a store holds under a key does not acknowledge another payload. -/
def Accepts (s : SegmentStore) (k : Key) (data : List UInt8) : Prop :=
  ∀ e, s.extents.lookup k = some e → e.checksum = crc32c data → e = .live data
  deriving Decidable

/-- The extent is live with this payload. -/
def Live (s : SegmentStore) (k : Key) (data : List UInt8) : Prop :=
  s.extents.lookup k = some (.live data)

/-- The extent is live. -/
def isLive (s : SegmentStore) (k : Key) : Bool :=
  match s.extents.lookup k with
  | some (.live _) => true
  | _ => false

theorem isLive_iff : s.isLive k = true ↔ ∃ data, s.Live k data := by
  unfold isLive Live
  split
  · rename_i data h
    simp [h]
  · rename_i h
    simpa using fun data hlive => h data hlive

theorem Live.isLive (h : s.Live k data) : s.isLive k = true := isLive_iff.mpr ⟨data, h⟩

/-- The store knows an extent at no generation above this one. -/
def UpTo (s : SegmentStore) (e : ExtentID) (g : Generation) : Prop :=
  ∀ g', (s.extents.lookup (e, g')).isSome → g' ≤ g

variable {e : ExtentID} {g : Generation}

theorem mem_generations : g ∈ s.generations e ↔ (s.extents.lookup (e, g)).isSome := by
  rw [AList.lookup_isSome, AList.mem_keys]
  simp [generations]

theorem upTo_iff : s.UpTo e g ↔ ∀ g' ∈ s.generations e, g' ≤ g := by
  simp only [UpTo, mem_generations]

instance (s : SegmentStore) (e : ExtentID) (g : Generation) : Decidable (s.UpTo e g) :=
  have : Decidable (∀ g' ∈ s.generations e, g' ≤ g) := List.decidableBAll _ _
  decidable_of_iff' _ upTo_iff

theorem latest_eq_some : s.latest e = some g ↔ (s.extents.lookup (e, g)).isSome ∧ s.UpTo e g := by
  rw [latest, List.max?_eq_some_iff, mem_generations, upTo_iff]

/-- A listing shows the latest generation, if that is live. -/
theorem listed_iff :
    (s.listed e).map LiveExtent.generation = some g ↔ s.isLive (e, g) = true ∧ s.UpTo e g := by
  have hsome : s.isLive (e, g) = true → (s.extents.lookup (e, g)).isSome := by
    rw [isLive_iff]
    rintro ⟨data, h⟩
    simp [show s.extents.lookup (e, g) = _ from h]
  unfold listed
  split
  · rename_i hlatest
    refine iff_of_false (by simp) fun h => ?_
    rw [latest_eq_some.mpr ⟨hsome h.1, h.2⟩] at hlatest
    simp at hlatest
  rename_i g' hlatest
  have hg' := latest_eq_some.mp hlatest
  constructor
  · intro h
    split at h
    · rename_i data hlive
      obtain rfl : g' = g := by simpa using h
      exact ⟨by simp [isLive, hlive], hg'.2⟩
    · simp at h
  intro h
  obtain rfl : g' = g := by
    have := latest_eq_some.mpr ⟨hsome h.1, h.2⟩
    rw [hlatest] at this
    exact Option.some.inj this
  obtain ⟨data, hlive⟩ := isLive_iff.mp h.1
  simp [show s.extents.lookup (e, g') = _ from hlive]

theorem listed_extentID {x : LiveExtent} (h : s.listed e = some x) : x.extentID = e := by
  unfold listed at h
  split at h
  · simp at h
  · split at h
    · cases h
      rfl
    · simp at h

/-- Every extent is listed once. -/
theorem listExtents_nodup {extents : List LiveExtent} (h : s.listExtents = .ok extents) :
    (extents.map LiveExtent.extentID).Nodup := by
  unfold listExtents at h
  split_ifs at h
  cases h
  have hsub : ∀ ids : List ExtentID,
      ((ids.filterMap s.listed).map LiveExtent.extentID).Sublist ids := by
    intro ids
    induction ids with
    | nil => simp
    | cons e ids ih =>
      cases he : s.listed e with
      | none =>
        rw [filterMap_cons_none he]
        exact ih.cons _
      | some x =>
        rw [filterMap_cons_some he, map_cons, listed_extentID he]
        exact ih.cons_cons _
  exact (nodup_dedup _).sublist (hsub _)

theorem write_cases (h : s.write k data = .ok s') : s.closed = false ∧ s'.closed = false ∧
      ((s' = s ∧ ∃ e, s.extents.lookup k = some e ∧ e.checksum = crc32c data) ∨
        (s.extents.lookup k = none ∧ s'.extents = s.extents.insert k (.live data))) := by
  unfold write at h
  split_ifs at h with hclosed
  rw [Bool.not_eq_true] at hclosed
  split at h
  · rename_i e he
    split_ifs at h with hsum
    cases h
    exact ⟨hclosed, hclosed, .inl ⟨rfl, e, he, hsum⟩⟩
  · rename_i hnone
    cases h
    exact ⟨hclosed, hclosed, .inr ⟨hnone, rfl⟩⟩

theorem lookup_write_ne (h : s.write k data = .ok s') (hne : k' ≠ k) :
    s'.extents.lookup k' = s.extents.lookup k' := by
  obtain ⟨-, -, ⟨rfl, -⟩ | ⟨-, heq⟩⟩ := write_cases h
  · rfl
  · rw [heq, lookup_insert_ne hne]

theorem live_of_write (h : s.write k data = .ok s') (haccepts : s.Accepts k data) :
    s'.Live k data := by
  obtain ⟨-, -, ⟨rfl, e, he, hsum⟩ | ⟨-, heq⟩⟩ := write_cases h
  · rw [Live, he, haccepts e he hsum]
  · rw [Live, heq, lookup_insert]

theorem delete_cases (h : s.delete k = .ok s') : s.closed = false ∧ s'.closed = false ∧
      ((s' = s ∧ s.extents.lookup k = none) ∨ ∃ e, s.extents.lookup k = some e ∧
          s'.extents = s.extents.insert k (.tombstoned e.data)) := by
  unfold delete at h
  split_ifs at h with hclosed
  rw [Bool.not_eq_true] at hclosed
  split at h
  · rename_i e he
    cases h
    exact ⟨hclosed, hclosed, .inr ⟨e, he, rfl⟩⟩
  · rename_i hnone
    cases h
    exact ⟨hclosed, hclosed, .inl ⟨rfl, hnone⟩⟩

theorem exists_delete (k : Key) (h : s.closed = false) : ∃ s', s.delete k = .ok s' := by
  unfold delete
  rw [if_neg (by simp [h])]
  split <;> exact ⟨_, rfl⟩

theorem lookup_delete_ne (h : s.delete k = .ok s') (hne : k' ≠ k) :
    s'.extents.lookup k' = s.extents.lookup k' := by
  obtain ⟨-, -, ⟨rfl, -⟩ | ⟨e, -, heq⟩⟩ := delete_cases h
  · rfl
  · rw [heq, lookup_insert_ne hne]

theorem isLive_of_delete (h : s.delete k = .ok s') : s'.isLive k = false := by
  obtain ⟨-, -, ⟨rfl, hnone⟩ | ⟨e, -, heq⟩⟩ := delete_cases h
  · simp [isLive, hnone]
  · simp [isLive, heq]

/-- A delete revives nothing. -/
theorem isLive_of_isLive_delete (h : s.delete k = .ok s') (hlive : s'.isLive k' = true) :
    s.isLive k' = true := by
  by_cases hk : k' = k
  · rw [hk, isLive_of_delete h] at hlive
    simp at hlive
  · unfold isLive at hlive ⊢
    rwa [lookup_delete_ne h hk] at hlive

/-- A tombstone that is written best-effort. -/
def tombstone (fails : Bool) (k : Key) (s : SegmentStore) : SegmentStore :=
  match s.delete k with
  | .ok s' => if fails then s else s'
  | .error _ => s

theorem lookup_tombstone_ne (fails : Bool) (s : SegmentStore) (hne : k' ≠ k) :
    (s.tombstone fails k).extents.lookup k' = s.extents.lookup k' := by
  unfold tombstone
  split
  · rename_i s' hdelete
    split_ifs
    · rfl
    · exact lookup_delete_ne hdelete hne
  · rfl

@[simp] theorem closed_tombstone (fails : Bool) (k : Key) (s : SegmentStore) :
    (s.tombstone fails k).closed = s.closed := by
  unfold tombstone
  split
  · rename_i s' hdelete
    split_ifs
    · rfl
    · rw [(delete_cases hdelete).1, (delete_cases hdelete).2.1]
  · rfl

theorem read_live (hclosed : s.closed = false) (h : s.Live k data) :
    s.read k = .ok (data, crc32c data) := by
  unfold read
  rw [hclosed, h]
  simp

theorem read_not_live (hclosed : s.closed = false) (h : s.isLive k = false) :
    s.read k = .error .extentNotFound := by
  unfold read
  rw [hclosed]
  simp only [Bool.false_eq_true, if_false]
  split
  · rename_i data hlive
    simp [isLive, hlive] at h
  · rfl
  · rfl

theorem live_of_read {sum : UInt32} (h : s.read k = .ok (data, sum)) : s.Live k data := by
  unfold read at h
  split_ifs at h
  split at h
  · rename_i data' hlive
    cases h
    exact hlive
  · simp at h
  · simp at h

end SegmentStore

/-! ### Placement -/

theorem getD_modify {α : Type} (l : List α) (i j : Nat) (f : α → α) (d : α) :
    (l.modify i f).getD j d = if j = i ∧ i < l.length then f (l.getD i d) else l.getD j d := by
  rw [List.getD_eq_getElem?_getD, List.getElem?_modify]
  split_ifs with hij hif hif
  · subst hij
    simp [hif.2]
  · subst hij
    have hge : l.length ≤ i := Nat.le_of_not_lt fun hlt => hif ⟨rfl, hlt⟩
    simp [hge]
  · exact absurd hif.1.symm hij
  · simp

theorem leastUsed_lt {skip : Nat → Bool} {backends : List DiskBackend} {i : Nat}
    (h : leastUsed skip backends = some i) : i < backends.length ∧ skip i = false := by
  unfold leastUsed at h
  -- Whatever the loop has chosen is one of the indexes it has passed.
  suffices hloop : ∀ (l : List (DiskBackend × Nat)) (best : Option Nat × Int),
      (∀ b ∈ l, b.2 < backends.length) →
      (∀ j, best.1 = some j → j < backends.length ∧ skip j = false) →
      ∀ j, (l.foldl (fun best b =>
        if skip b.2 then best
        else if b.1.usedByts < best.2 then (some b.2, b.1.usedByts)
        else best) best).1 = some j → j < backends.length ∧ skip j = false by
    refine hloop _ _ (fun b hb => ?_) (by simp) i h
    have := mem_zipIdx hb
    omega
  intro l
  induction l with
  | nil => exact fun _ _ hbest => hbest
  | cons b l ih =>
    intro best hl hbest
    rw [foldl_cons]
    refine ih _ (fun b' hb' => hl b' (.tail _ hb')) ?_
    intro j hj
    split_ifs at hj with hskip hused
    · exact hbest j hj
    · cases hj
      exact ⟨hl b mem_cons_self, by simpa using hskip⟩
    · exact hbest j hj

namespace V2Store

variable {v v' : V2Store} {c c' : ChunkID} {env : Env} {gen : Generation} {data : List UInt8}

section

variable (v : V2Store)

/-- The segment store at a place. -/
def stores (p : Place) : SegmentStore := (v.backend p.1 p.2).store

/-- The place exists. -/
def Has (p : Place) : Prop := p.2 < (v.streams p.1).length

@[simp] theorem stores_setLoc (c : ChunkID) (loc : ChunkLoc) :
    (v.setLoc c loc).stores = v.stores := rfl

@[simp] theorem locOf_modifyBackend (small : Bool) (i : Nat)
    (f : DiskBackend → DiskBackend) : (v.modifyBackend small i f).locOf = v.locOf := by
  unfold modifyBackend
  split <;> rfl

@[simp] theorem length_streams_modifyBackend (small small' : Bool) (i : Nat)
    (f : DiskBackend → DiskBackend) :
    ((v.modifyBackend small i f).streams small').length = (v.streams small').length := by
  cases small <;> cases small' <;> simp [modifyBackend, streams]

@[simp] theorem length_disks_modifyBackend (small : Bool) (i : Nat)
    (f : DiskBackend → DiskBackend) : (v.modifyBackend small i f).disks.length = v.disks.length :=
  length_streams_modifyBackend v small false i f

@[simp] theorem length_small_modifyBackend (small : Bool) (i : Nat)
    (f : DiskBackend → DiskBackend) : (v.modifyBackend small i f).small.length = v.small.length :=
  length_streams_modifyBackend v small true i f

theorem streams_modifyBackend (small small' : Bool) (i : Nat)
    (f : DiskBackend → DiskBackend) : (v.modifyBackend small i f).streams small' =
      if small' = small then (v.streams small).modify i f else v.streams small' := by
  cases small <;> cases small' <;> rfl

theorem backend_modifyBackend (small small' : Bool) (i j : Nat)
    (f : DiskBackend → DiskBackend) : (v.modifyBackend small i f).backend small' j =
      if small' = small ∧ j = i ∧ i < (v.streams small).length then f (v.backend small i)
      else v.backend small' j := by
  simp only [backend, streams_modifyBackend]
  by_cases hsmall : small' = small
  · subst hsmall
    rw [if_pos rfl, getD_modify]
    simp
  · simp [hsmall]

end

variable {i src dst : Nat} {p : Place} {loc : ChunkLoc} {remove : Bool} {s : SegmentStore}

variable {small : Bool} {f : DiskBackend → DiskBackend} {locOf : AList fun _ : ChunkID => ChunkLoc}
  {P : Place → SegmentStore → Prop} {Inv : V2Store → Prop}
  {Movable : V2Store → ChunkID → Nat → Prop}

/-- Changing one backend changes the store at its place. -/
theorem stores_modifyBackend (v : V2Store) (h : v.Has (small, i)) (f : DiskBackend → DiskBackend) :
    (v.modifyBackend small i f).stores =
      Function.update v.stores (small, i) (f (v.backend small i)).store := by
  funext p
  obtain ⟨small', j⟩ := p
  simp only [stores, backend_modifyBackend, update_apply, Prod.mk.injEq]
  by_cases hp : small' = small ∧ j = i
  · rw [if_pos ⟨hp.1, hp.2, h⟩, if_pos hp]
  · rw [if_neg fun hand => hp ⟨hand.1, hand.2.1⟩, if_neg hp]

/-- Accounting does not touch the stores. -/
theorem stores_account (v : V2Store) (small : Bool) (i : Nat) (hf : ∀ b, (f b).store = b.store) :
    (v.modifyBackend small i f).stores = v.stores := by
  funext p
  obtain ⟨small', j⟩ := p
  simp only [stores, backend_modifyBackend]
  split_ifs with hif
  · rw [hf, hif.1, hif.2.1]
  · rfl

/-! ### Locations -/

/-- Every chunk of the location map is at a place that exists. -/
def Located (v : V2Store) : Prop :=
  ∀ c loc, v.locOf.lookup c = some loc → v.Has loc.place

theorem lt_of_has (h : v.Has p) : p.2 < v.disks.length := by
  obtain ⟨small, i⟩ := p
  cases small with
  | false => exact h
  | true =>
    rcases v.small_length with hnil | hlen
    · simp [Has, streams, hnil] at h
    · rw [← hlen]
      exact h

theorem has_data (h : v.Has p) : v.Has (false, p.2) := by
  have hlt := lt_of_has h
  exact hlt

theorem loc_of_lookup (hlocated : v.Located) (h : v.locOf.lookup c = some loc) : v.loc c = loc := by
  have hlt : loc.disk < v.disks.length := lt_of_has (hlocated c loc h)
  simp [V2Store.loc, h, hlt]

theorem loc_of_unknown (h : v.locOf.lookup c = none) : v.loc c = ⟨0, 1, false⟩ := by
  have := v.disks_pos
  simp [V2Store.loc, h, Nat.ne_of_gt this]

theorem has_first (v : V2Store) : v.Has (false, 0) := v.disks_pos

theorem has_loc (hlocated : v.Located) (c : ChunkID) : v.Has (v.loc c).place := by
  cases h : v.locOf.lookup c with
  | none =>
    rw [loc_of_unknown h]
    exact v.has_first
  | some loc =>
    rw [loc_of_lookup hlocated h]
    exact hlocated c loc h

theorem backendIndex_of_has (h : v.Has loc.place) : v.backendIndex loc = loc.place := by
  have hlt := lt_of_has h
  obtain ⟨disk, gen, small⟩ := loc
  cases small with
  | false =>
    have hdisk : ¬ v.disks.length ≤ disk := Nat.not_le.mpr hlt
    simp only [backendIndex, ChunkLoc.place, if_neg hdisk]
    simp
  | true =>
    have hsmall : disk < v.small.length := h
    simp [backendIndex, ChunkLoc.place, hsmall]

theorem store_backendAt (h : v.Has loc.place) : (v.backendAt loc).store = v.stores loc.place := by
  rw [backendAt, backendIndex_of_has h]
  rfl

theorem read_eq (hlocated : v.Located) (c : ChunkID) :
    v.read c = (v.stores (v.loc c).place).read (c, (v.loc c).gen) := by
  rw [V2Store.read, store_backendAt (has_loc hlocated c)]

/-! ### What a call leaves -/

/-- The stores and the location map a call leaves; no disk is added. -/
structure Leaves (v v' : V2Store) (stores : Place → SegmentStore)
    (locOf : AList fun _ : ChunkID => ChunkLoc) : Prop where
  stores_eq : v'.stores = stores
  locOf_eq : v'.locOf = locOf
  disks_eq : v'.disks.length = v.disks.length
  small_eq : v'.small.length = v.small.length

theorem has_congr (hdisks : v'.disks.length = v.disks.length)
    (hsmall : v'.small.length = v.small.length) (p : Place) : v'.Has p ↔ v.Has p := by
  obtain ⟨small, i⟩ := p
  cases small with
  | false => simp [Has, streams, hdisks]
  | true => simp [Has, streams, hsmall]

theorem Leaves.has {stores : Place → SegmentStore} (h : Leaves v v' stores locOf) (p : Place) :
    v'.Has p ↔ v.Has p :=
  has_congr h.disks_eq h.small_eq p

/-- Nothing but accounting changes. -/
abbrev Unchanged (v v' : V2Store) : Prop := Leaves v v' v.stores v.locOf

theorem unchanged_refl (v : V2Store) : Unchanged v v := ⟨rfl, rfl, rfl, rfl⟩

theorem unchanged_account (v : V2Store) (small : Bool) (i : Nat) (hf : ∀ b, (f b).store = b.store) :
    Unchanged v (v.modifyBackend small i f) :=
  ⟨stores_account v small i hf, by simp, by simp, by simp⟩

theorem unchanged_dropUsed (v : V2Store) (small : Bool) (i : Nat) (len : Except Err Nat) :
    Unchanged v (v.dropUsed small i len) := by
  cases len with
  | ok len => exact unchanged_account v _ _ fun _ => rfl
  | error e => exact unchanged_refl v

theorem unchanged_removeDisk (v : V2Store) (idx : Int) : Unchanged v (v.removeDisk idx).2 := by
  unfold removeDisk
  split_ifs
  · exact unchanged_refl v
  · exact unchanged_account v false idx.toNat
      (f := fun b => { b with failCount := diskHealthFailedThreshold }) fun _ => rfl
  · exact unchanged_refl v

/-- A write to one stream: refused, or the extent is in its store and located there. -/
theorem writeStream_cases (env : Env) (refusing : String) (hhas : v.Has (small, i)) (c : ChunkID)
    (gen : Generation) (data : List UInt8) :
    (∃ e v', writeStream env small refusing v c i gen data = (.error e, v') ∧ Unchanged v v') ∨
      ∃ s v', writeStream env small refusing v c i gen data = (.ok (), v') ∧
        (v.stores (small, i)).write (c, gen) data = .ok s ∧
        Leaves v v' (Function.update v.stores (small, i) s) (v.locOf.insert c ⟨i, gen, small⟩) := by
  unfold writeStream
  split_ifs with hfailed hfull
  · exact .inl ⟨_, _, rfl, unchanged_refl v⟩
  · exact .inl ⟨_, _, rfl, unchanged_refl v⟩
  split
  · exact .inl ⟨_, _, rfl, unchanged_account v _ _ fun _ => rfl⟩
  · rename_i s hs
    refine .inr ⟨s, _, rfl, hs, ?_, ?_, by simp [setLoc], by simp [setLoc]⟩
    · rw [stores_setLoc, stores_modifyBackend v hhas]
      rfl
    · simp [setLoc]

theorem writeTo_eq (env : Env) (h : v.Has (false, i)) (c : ChunkID) (gen : Generation)
    (data : List UInt8) :
    writeTo env v c i gen data = writeStream env false "write" v c i gen data := by
  have hlt : i < v.disks.length := h
  rw [writeTo, if_neg (Nat.not_le.mpr hlt)]

theorem writeSmallTo_eq (env : Env) (h : v.Has (true, i)) (c : ChunkID) (gen : Generation)
    (data : List UInt8) :
    writeSmallTo env v c i gen data = writeStream env true "small write" v c i gen data := by
  have hlt : i < v.small.length := h
  have hne : v.small ≠ [] := ne_nil_of_length_pos (Nat.zero_lt_of_lt hlt)
  rw [writeSmallTo, if_neg hne, if_neg (Nat.not_le.mpr hlt)]

/-- Where a write goes. -/
def route (v : V2Store) (c : ChunkID) (gen : Generation) (data : List UInt8) : ChunkLoc :=
  match v.locOf.lookup c with
  | some loc => ⟨loc.disk, gen, loc.small && decide (data.length ≤ smallFileThreshold)⟩
  | none =>
    if v.small ≠ [] ∧ data.length ≤ smallFileThreshold then ⟨v.leastUsedSmall, gen, true⟩
    else ⟨(v.nextLoc c).1, gen, false⟩

/-- The small extent a write outgrows. -/
def outgrown (v : V2Store) (c : ChunkID) (data : List UInt8) : Option ChunkLoc :=
  (v.locOf.lookup c).filter fun loc => loc.small && decide (smallFileThreshold < data.length)

theorem leastUsed_getD_lt {skip : Nat → Bool} {backends : List DiskBackend}
    (h : 0 < backends.length) : (leastUsed skip backends).getD 0 < backends.length := by
  cases hused : leastUsed skip backends with
  | none => exact h
  | some i => exact (leastUsed_lt hused).1

theorem has_route (hlocated : v.Located) (c : ChunkID) (gen : Generation) (data : List UInt8) :
    v.Has (v.route c gen data).place := by
  unfold route
  split
  · rename_i loc hloc
    have hhas := hlocated c loc hloc
    cases hsmall : loc.small && decide (data.length ≤ smallFileThreshold) with
    | false =>
      have hlt : loc.disk < v.disks.length := lt_of_has hhas
      exact hlt
    | true =>
      rw [Bool.and_eq_true] at hsmall
      rw [ChunkLoc.place, hsmall.1] at hhas
      exact hhas
  · rename_i hnone
    split_ifs with hsmall
    · exact leastUsed_getD_lt (length_pos_iff.mpr hsmall.1)
    · rw [V2Store.nextLoc, hnone]
      exact leastUsed_getD_lt v.disks_pos

@[simp] theorem gen_route (v : V2Store) (c : ChunkID) (gen : Generation) (data : List UInt8) :
    (v.route c gen data).gen = gen := by
  unfold route
  split
  · rfl
  · split <;> rfl

section

variable (env : Env)

/-- The stores a successful write leaves. -/
def storesAfterWrite (v : V2Store) (c : ChunkID) (gen : Generation) (data : List UInt8)
    (s : SegmentStore) : Place → SegmentStore :=
  let stores := Function.update v.stores (v.route c gen data).place s
  match v.outgrown c data with
  | none => stores
  | some loc => Function.update stores loc.place
      ((v.stores loc.place).tombstone (env.tombstoneFails c) (c, loc.gen))

theorem storesAfterWrite_fits (h : v.outgrown c data = none) (gen : Generation)
    (s : SegmentStore) : v.storesAfterWrite env c gen data s =
      Function.update v.stores (v.route c gen data).place s := by
  simp only [storesAfterWrite, h]

theorem storesAfterWrite_outgrown (h : v.outgrown c data = some loc)
    (gen : Generation) (s : SegmentStore) : v.storesAfterWrite env c gen data s =
      Function.update (Function.update v.stores (v.route c gen data).place s) loc.place
        ((v.stores loc.place).tombstone (env.tombstoneFails c) (c, loc.gen)) := by
  simp only [storesAfterWrite, h]

theorem store_tombstoneSmall (c : ChunkID) (gen : Generation) (b : DiskBackend) :
    (tombstoneSmall env c gen b).store = b.store.tombstone (env.tombstoneFails c) (c, gen) := by
  unfold tombstoneSmall SegmentStore.tombstone
  cases hstat : b.store.stat (c, gen) <;> cases hdelete : b.store.delete (c, gen) <;>
    cases env.tombstoneFails c <;> simp [hdelete]

theorem store_removeSource (c : ChunkID) (gen : Generation) (b : DiskBackend) :
    (removeSource env c gen b).store = b.store.tombstone (env.tombstoneFails c) (c, gen) := by
  unfold removeSource SegmentStore.tombstone
  cases b.store.delete (c, gen) with
  | error e => rfl
  | ok s => cases env.tombstoneFails c <;> rfl

/-- A write under a generation of its own is one under the next generation. -/
theorem write_eq_writeGen (v : V2Store) (c : ChunkID) (data : List UInt8) :
    write env v c data = writeGen env v c (v.nextLoc c).2 data := by
  unfold write writeGen currentLoc nextLoc
  cases v.locOf.lookup c with
  | none | some loc => rfl

/-- A small chunk grows: the tombstone is written only after the payload. -/
theorem migrateSmallToData_cases (hloc : v.locOf.lookup c = some loc)
    (hhas : v.Has (true, loc.disk)) (gen : Generation) (data : List UInt8) :
    (∃ e v', migrateSmallToData env v c loc gen data = (.error e, v') ∧ Unchanged v v') ∨
      ∃ s v', migrateSmallToData env v c loc gen data = (.ok (), v') ∧
        (v.stores (false, loc.disk)).write (c, gen) data = .ok s ∧
        Leaves v v' (Function.update (Function.update v.stores (false, loc.disk) s) (true, loc.disk)
            ((v.stores (true, loc.disk)).tombstone (env.tombstoneFails c) (c, loc.gen)))
          (v.locOf.insert c ⟨loc.disk, gen, false⟩) := by
  have hdata : v.Has (false, loc.disk) := has_data hhas
  have hnext : v.nextLoc c = (loc.disk, loc.gen + 1) := by simp [nextLoc, hloc]
  simp only [migrateSmallToData, hnext, writeTo_eq env hdata]
  rcases writeStream_cases env "write" hdata c gen data with
    ⟨e, v', hw, hun⟩ | ⟨s, v', hw, hs, hleaves⟩
  · rw [hw]
    exact .inl ⟨e, v', rfl, hun⟩
  have hhas' : v'.Has (true, loc.disk) := (hleaves.has _).mpr hhas
  have hlt' : loc.disk < v'.small.length := hhas'
  have hstore : (v'.backend true loc.disk).store = v.stores (true, loc.disk) := by
    have heq := congrFun hleaves.stores_eq (true, loc.disk)
    rwa [update_of_ne (by simp)] at heq
  rw [hw]
  refine .inr ⟨s, _, rfl, hs, ?_⟩
  rw [if_pos hlt']
  refine ⟨?_, ?_, by simp [hleaves.disks_eq], by simp [hleaves.small_eq]⟩
  · rw [stores_modifyBackend v' hhas', store_tombstoneSmall, hleaves.stores_eq, hstore]
  · rw [locOf_modifyBackend, hleaves.locOf_eq]

/-- A write that outgrows nothing is one to the stream it is routed to. -/
theorem writeGen_fits (hlocated : v.Located) (hgrown : v.outgrown c data = none)
    (gen : Generation) : ∃ refusing, writeGen env v c gen data =
      writeStream env (v.route c gen data).small refusing v c
        (v.route c gen data).disk gen data := by
  have hroute := has_route hlocated c gen data
  cases hloc : v.locOf.lookup c with
  | none =>
    simp only [route, writeGen, currentLoc, hloc] at hroute ⊢
    split_ifs at hroute ⊢
    · exact ⟨_, writeSmallTo_eq env hroute c gen data⟩
    · exact ⟨_, writeTo_eq env hroute c gen data⟩
  | some loc =>
    obtain ⟨disk, oldGen, small⟩ := loc
    simp only [route, writeGen, currentLoc, hloc] at hroute ⊢
    cases small with
    | false => exact ⟨_, writeTo_eq env hroute c gen data⟩
    | true =>
      have hfits : data.length ≤ smallFileThreshold := by simpa [outgrown, hloc] using hgrown
      simp only [hfits, decide_true, if_true, Bool.and_true] at hroute ⊢
      exact ⟨_, writeSmallTo_eq env hroute c gen data⟩

/-- **A write**: refused, or its payload is in the store it is routed to. -/
theorem writeGen_cases (hlocated : v.Located) (c : ChunkID) (gen : Generation)
    (data : List UInt8) :
    (∃ e v', writeGen env v c gen data = (.error e, v') ∧ Unchanged v v') ∨
      ∃ s v', writeGen env v c gen data = (.ok (), v') ∧
        (v.stores (v.route c gen data).place).write (c, gen) data = .ok s ∧
        Leaves v v' (v.storesAfterWrite env c gen data s)
          (v.locOf.insert c (v.route c gen data)) := by
  cases hgrown : v.outgrown c data with
  | none =>
    obtain ⟨refusing, hcall⟩ := writeGen_fits env hlocated hgrown gen
    have hhas := has_route hlocated c gen data
    have hgen := gen_route v c gen data
    simp only [hcall, storesAfterWrite_fits env hgrown]
    generalize v.route c gen data = loc at hhas hgen ⊢
    obtain ⟨disk, g, small⟩ := loc
    obtain rfl : g = gen := hgen
    exact writeStream_cases env refusing hhas c g data
  | some loc =>
    obtain ⟨hloc, hgrew⟩ := Option.filter_eq_some_iff.mp hgrown
    rw [Bool.and_eq_true, decide_eq_true_eq, ← Nat.not_le] at hgrew
    have hhas := hlocated c loc hloc
    have hplace : loc.place = (true, loc.disk) := by rw [ChunkLoc.place, hgrew.1]
    have hroute : v.route c gen data = ⟨loc.disk, gen, false⟩ := by simp [route, hloc, hgrew.2]
    have hcall : writeGen env v c gen data = migrateSmallToData env v c loc gen data := by
      simp [writeGen, currentLoc, hloc, hgrew]
    rw [hplace] at hhas
    simp only [hcall, storesAfterWrite_outgrown env hgrown, hroute, hplace]
    exact migrateSmallToData_cases env hloc hhas gen data

end

/-- **A delete**: the extent of the chunk's location is tombstoned, and the location forgotten. -/
theorem delete_cases (hlocated : v.Located) (c : ChunkID) :
    (∃ e v', delete v c = (.error e, v') ∧ Unchanged v v') ∨ ∃ s v', delete v c = (.ok (), v') ∧
        (v.stores (v.loc c).place).delete (c, (v.loc c).gen) = .ok s ∧
        Leaves v v' (Function.update v.stores (v.loc c).place s) (v.locOf.erase c) := by
  have hhas := has_loc hlocated c
  unfold V2Store.delete
  simp only [store_backendAt hhas, backendIndex_of_has hhas]
  -- The bytes are taken off first, whatever the delete does.
  generalize hv1 : v.dropUsed (v.loc c).place.1 (v.loc c).place.2
    ((v.stores (v.loc c).place).stat (c, (v.loc c).gen)) = v1
  have hun : Unchanged v v1 := by
    rw [← hv1]
    exact unchanged_dropUsed v _ _ _
  cases hdelete : (v.stores (v.loc c).place).delete (c, (v.loc c).gen) with
  | error e => exact .inl ⟨e, v1, rfl, hun⟩
  | ok s =>
    have hhas1 : v1.Has ((v.loc c).place.1, (v.loc c).place.2) := (hun.has _).mpr hhas
    refine .inr ⟨s, _, rfl, rfl, ?_, by simp [dropLoc, hun.locOf_eq],
      by simp [dropLoc, hun.disks_eq], by simp [dropLoc, hun.small_eq]⟩
    have hstores := stores_modifyBackend v1 hhas1
      fun b => { b with store := s, extCount := b.extCount - 1 }
    rw [hun.stores_eq] at hstores
    exact hstores

/-- The stores a successful move leaves. -/
def storesAfterMove (env : Env) (v : V2Store) (c : ChunkID) (gen : Generation) (src dst : Nat)
    (remove : Bool) (s : SegmentStore) : Place → SegmentStore :=
  let stores := Function.update v.stores (false, dst) s
  if remove then
    Function.update stores (false, src)
      ((v.stores (false, src)).tombstone (env.tombstoneFails c) (c, gen))
  else stores

theorem leaves_repoint (env : Env) (hsrc : v.Has (false, src)) (hdst : v.Has (false, dst))
    (hne : src ≠ dst) :
    Leaves v ((v.modifyBackend false dst fun b => { b with store := s, failCount := 0 }).repoint env
      c gen src dst remove data) (v.storesAfterMove env c gen src dst remove s)
      (v.locOf.insert c ⟨dst, gen, false⟩) := by
  have hcopied := stores_modifyBackend v hdst fun b => { b with store := s, failCount := 0 }
  have hsource : ((v.modifyBackend false dst fun b => { b with store := s, failCount := 0 }).stores
      (false, src)) = v.stores (false, src) := by
    rw [hcopied, update_of_ne (by simpa using hne)]
  refine ⟨?_,
    by cases remove <;> simp [repoint, setLoc], by cases remove <;> simp [repoint, setLoc],
    by cases remove <;> simp [repoint, setLoc]⟩
  simp only [repoint]
  rw [stores_account _ _ _ (by intro b; rfl), stores_account _ _ _ (by intro b; rfl)]
  cases remove with
  | false => exact hcopied
  | true =>
    have hhas : ((v.modifyBackend false dst fun b => { b with store := s, failCount := 0 }).setLoc
        c ⟨dst, gen, false⟩).Has (false, src) := by
      have hlt : src < v.disks.length := hsrc
      show src < _
      simpa [setLoc, streams] using hlt
    rw [if_pos rfl, stores_modifyBackend _ hhas, store_removeSource, stores_setLoc, hcopied]
    simp only [storesAfterMove, if_true]
    rw [← hsource]
    rfl

/-- **A move**: refused, or the extent is copied and located at the target. -/
theorem rebalanceOne_cases (env : Env) (v : V2Store) (c : ChunkID) (fromDisk toDisk : Int)
    (remove : Bool) :
    (∃ e v', rebalanceOne env v c fromDisk toDisk remove = (.error e, v') ∧ Unchanged v v') ∨
      ∃ loc data s v', rebalanceOne env v c fromDisk toDisk remove = (.ok (), v') ∧
        fromDisk.toNat ≠ toDisk.toNat ∧ v.Has (false, fromDisk.toNat) ∧
        v.Has (false, toDisk.toNat) ∧
        v.locOf.lookup c = some loc ∧ loc.disk = fromDisk.toNat ∧
        (v.stores (false, fromDisk.toNat)).Live (c, loc.gen) data ∧
        (v.stores (false, toDisk.toNat)).write (c, loc.gen) data = .ok s ∧
        Leaves v v' (v.storesAfterMove env c loc.gen fromDisk.toNat toDisk.toNat remove s)
          (v.locOf.insert c ⟨toDisk.toNat, loc.gen, false⟩) := by
  unfold rebalanceOne
  split_ifs with hsame hrange hfailed
  · exact .inl ⟨_, _, rfl, unchanged_refl v⟩
  · exact .inl ⟨_, _, rfl, unchanged_refl v⟩
  · exact .inl ⟨_, _, rfl, unchanged_refl v⟩
  simp only [inRange, not_or, not_not, decide_eq_true_eq] at hrange
  obtain ⟨⟨hto, hto'⟩, hfrom, hfrom'⟩ := hrange
  have hne : fromDisk.toNat ≠ toDisk.toNat := by omega
  have hhasFrom : v.Has (false, fromDisk.toNat) := by
    show fromDisk.toNat < v.disks.length
    omega
  have hhasTo : v.Has (false, toDisk.toNat) := by
    show toDisk.toNat < v.disks.length
    omega
  split
  · exact .inl ⟨_, _, rfl, unchanged_refl v⟩
  rename_i loc hloc
  split_ifs with hdisk
  · exact .inl ⟨_, _, rfl, unchanged_refl v⟩
  rw [not_not] at hdisk
  split
  · exact .inl ⟨_, _, rfl, unchanged_refl v⟩
  rename_i data sum hread
  split
  · exact .inl ⟨_, _, rfl, unchanged_account v _ _ fun _ => rfl⟩
  rename_i s hwrite
  -- Nothing runs between the copy and the check.
  have hstill : ∀ f, (v.modifyBackend false toDisk.toNat f).stillAt c fromDisk.toNat loc.gen =
      true := by
    intro f
    simp [stillAt, hloc, hdisk]
  rw [if_neg (by simp [hstill])]
  exact .inr ⟨loc, data, s, _, rfl, hne, hhasFrom, hhasTo, hloc, hdisk, live_of_read hread,
    hwrite, leaves_repoint env hhasFrom hhasTo hne⟩

/-- The places of the store, in the order they are scanned. -/
def places (v : V2Store) : List Place :=
  (List.range v.disks.length).map (false, ·) ++ (List.range v.small.length).map (true, ·)

theorem mem_places : p ∈ v.places ↔ v.Has p := by
  obtain ⟨small, i⟩ := p
  cases small <;> simp [places, Has, streams]

/-! ### One chunk at a time -/

/-- What holds of every store and of a store after a write and a tombstone of one chunk. -/
theorem forall_storesAfterWrite (h : ∀ p, P p (v.stores p)) (hs : P (v.route c gen data).place s)
    (htombstone : ∀ p g, P p ((v.stores p).tombstone (env.tombstoneFails c) (c, g))) (p : Place) :
    P p (v.storesAfterWrite env c gen data s p) := by
  have hupdate := (forall_update_iff v.stores P).mpr ⟨hs, fun q _ => h q⟩
  cases hgrown : v.outgrown c data with
  | none =>
    rw [storesAfterWrite_fits env hgrown]
    exact hupdate p
  | some loc =>
    rw [storesAfterWrite_outgrown env hgrown]
    exact (forall_update_iff _ P).mpr ⟨htombstone _ _, fun q _ => hupdate q⟩ p

theorem forall_storesAfterMove (h : ∀ p, P p (v.stores p)) (hs : P (false, dst) s)
    (htombstone : ∀ p g, P p ((v.stores p).tombstone (env.tombstoneFails c) (c, g))) (p : Place) :
    P p (v.storesAfterMove env c gen src dst remove s p) := by
  have hupdate := (forall_update_iff v.stores P).mpr ⟨hs, fun q _ => h q⟩
  unfold storesAfterMove
  split_ifs
  · exact (forall_update_iff _ P).mpr ⟨htombstone _ _, fun q _ => hupdate q⟩ p
  · exact hupdate p

/-- Nothing about a chunk has changed. -/
structure AgreesOn (v v' : V2Store) (c : ChunkID) : Prop where
  locOf : v'.locOf.lookup c = v.locOf.lookup c
  stores : ∀ p g, (v'.stores p).extents.lookup (c, g) = (v.stores p).extents.lookup (c, g)

/-- **What every call leaves alone**: the other chunks, the disks, and that stores are open. -/
structure Touches (v v' : V2Store) (c : ChunkID) : Prop where
  others : ∀ c' ≠ c, AgreesOn v v' c'
  disks_eq : v'.disks.length = v.disks.length
  small_eq : v'.small.length = v.small.length
  opened : (∀ p, (v.stores p).closed = false) → ∀ p, (v'.stores p).closed = false

/-- Only extents of one chunk differ, and an open store stays open. -/
structure DiffersOn (c : ChunkID) (s s' : SegmentStore) : Prop where
  others : ∀ c' ≠ c, ∀ g, s'.extents.lookup (c', g) = s.extents.lookup (c', g)
  opened : s.closed = false → s'.closed = false

theorem Leaves.touches {stores : Place → SegmentStore} (h : Leaves v v' stores locOf)
    (hlocOf : ∀ c' ≠ c, locOf.lookup c' = v.locOf.lookup c')
    (hstores : ∀ p, DiffersOn c (v.stores p) (stores p)) : Touches v v' c := by
  refine ⟨fun c' hc => ⟨?_, ?_⟩, h.disks_eq, h.small_eq, ?_⟩
  · rw [h.locOf_eq, hlocOf c' hc]
  · rw [h.stores_eq]
    exact fun p => (hstores p).others c' hc
  · rw [h.stores_eq]
    exact fun hopened p => (hstores p).opened (hopened p)

theorem Touches.has (h : Touches v v' c) (p : Place) : v'.Has p ↔ v.Has p :=
  has_congr h.disks_eq h.small_eq p

theorem key_ne (hc : c' ≠ c) (g g' : Generation) : (c', g) ≠ (c, g') :=
  fun heq => hc (Prod.mk.inj heq).1

theorem DiffersOn.refl (s : SegmentStore) : DiffersOn c s s := ⟨fun _ _ _ => rfl, id⟩

theorem DiffersOn.write {s0 : SegmentStore} (h : s0.write (c, gen) data = .ok s) :
    DiffersOn c s0 s :=
  ⟨fun _ hc _ => lookup_write_ne h (key_ne hc _ _),
    fun _ => (write_cases h).2.1⟩

theorem DiffersOn.tombstone (s : SegmentStore) (fails : Bool) (g : Generation) :
    DiffersOn c s (s.tombstone fails (c, g)) :=
  ⟨fun _ hc _ => lookup_tombstone_ne _ _ (key_ne hc _ _),
    (closed_tombstone ..).trans⟩

theorem unchanged_touches (h : Unchanged v v') (c : ChunkID) : Touches v v' c :=
  h.touches (fun _ _ => rfl) fun _ => .refl _

/-- A write touches one chunk. -/
theorem touches_write (hwrite : (v.stores (v.route c gen data).place).write (c, gen) data = .ok s)
    (hleaves : Leaves v v' (v.storesAfterWrite env c gen data s)
      (v.locOf.insert c (v.route c gen data))) : Touches v v' c := by
  refine hleaves.touches (fun c' hc => lookup_insert_ne hc) ?_
  exact forall_storesAfterWrite (P := fun p => DiffersOn c (v.stores p)) (fun _ => .refl _)
    (.write hwrite) fun _ _ => .tombstone ..

/-- A delete touches one chunk. -/
theorem touches_delete (hdelete : (v.stores (v.loc c).place).delete (c, (v.loc c).gen) = .ok s)
    (hleaves : Leaves v v' (Function.update v.stores (v.loc c).place s) (v.locOf.erase c)) :
    Touches v v' c := by
  refine hleaves.touches (fun c' hc => lookup_erase_ne hc) ?_
  refine (forall_update_iff v.stores fun p => DiffersOn c (v.stores p)).mpr
    ⟨⟨fun c' hc g => ?_, fun _ => (SegmentStore.delete_cases hdelete).2.1⟩, fun _ _ => .refl _⟩
  exact SegmentStore.lookup_delete_ne hdelete (key_ne hc _ _)

/-- A move touches one chunk. -/
theorem touches_move (hwrite : (v.stores (false, dst)).write (c, gen) data = .ok s)
    (hleaves : Leaves v v' (v.storesAfterMove env c gen src dst remove s)
      (v.locOf.insert c loc)) : Touches v v' c := by
  refine hleaves.touches (fun c' hc => lookup_insert_ne hc) ?_
  exact forall_storesAfterMove (P := fun p => DiffersOn c (v.stores p)) (fun _ => .refl _)
    (.write hwrite) fun _ _ => .tombstone ..

/-- What was outgrown is in the small stream, what is written in the data stream. -/
theorem outgrown_place (h : v.outgrown c data = some loc) (gen : Generation) :
    v.locOf.lookup c = some loc ∧ loc.place = (true, loc.disk) ∧
      (v.route c gen data).place = (false, loc.disk) := by
  obtain ⟨hloc, hgrown⟩ := Option.filter_eq_some_iff.mp h
  rw [Bool.and_eq_true, decide_eq_true_eq] at hgrown
  refine ⟨hloc, by rw [ChunkLoc.place, hgrown.1], ?_⟩
  simp only [route, hloc, ChunkLoc.place, Prod.mk.injEq, and_true, Bool.and_eq_false_iff,
    decide_eq_false_iff_not]
  exact .inr (Nat.not_le.mpr hgrown.2)

/-- The payload is live where it was routed, also after the tombstone of an outgrown extent. -/
theorem storesAfterWrite_route (s : SegmentStore) :
    v.storesAfterWrite env c gen data s (v.route c gen data).place = s := by
  cases hgrown : v.outgrown c data with
  | none => rw [storesAfterWrite_fits env hgrown, update_self]
  | some loc =>
    obtain ⟨-, hplace, hroute⟩ := outgrown_place hgrown gen
    rw [storesAfterWrite_outgrown env hgrown, hplace, hroute, update_of_ne (by simp), update_self]

theorem storesAfterMove_target (hne : src ≠ dst) (remove : Bool) (s : SegmentStore) :
    v.storesAfterMove env c gen src dst remove s (false, dst) = s := by
  unfold storesAfterMove
  split_ifs
  · rw [update_of_ne (by simpa using hne.symm), update_self]
  · rw [update_self]

/-- A move leaves the other chunks alone, and adds no disk. -/
theorem rebalanceOne_touches (env : Env) (v : V2Store) (c : ChunkID) (fromDisk toDisk : Int)
    (remove : Bool) : Touches v (rebalanceOne env v c fromDisk toDisk remove).2 c := by
  rcases rebalanceOne_cases env v c fromDisk toDisk remove with
    ⟨e, v', hcall, hun⟩ | ⟨loc, data, s, v', hcall, -, -, -, -, -, -, hwrite, hleaves⟩
  · rw [hcall]
    exact unchanged_touches hun c
  · rw [hcall]
    exact touches_move hwrite hleaves

theorem Touches.places (h : Touches v v' c) : v'.places = v.places := by
  rw [V2Store.places, V2Store.places, h.disks_eq, h.small_eq]

theorem leastUsedDisk_spec {exclude : Nat} (h : v.leastUsedDisk exclude = some i) :
    i < v.disks.length ∧ i ≠ exclude := by
  obtain ⟨hlt, hskip⟩ := leastUsed_lt h
  simp only [Bool.or_eq_false_iff, beq_eq_false_iff_ne] at hskip
  exact ⟨hlt, hskip.1⟩

/--
**The rule for migrations.**  The loop moves different chunks, so what allows a move
before the loop still allows it when its turn comes.
-/
theorem migrateAll_invariant (env : Env) (hmove : ∀ v c (dst : Nat), Inv v → Movable v c dst →
      Inv (rebalanceOne env v c src dst true).2)
    (hframe : ∀ v v' c dst, Movable v c dst → AgreesOn v v' c → v'.places = v.places →
      Movable v' c dst) (cs : List ChunkID) (migrated : Nat) (hnodup : cs.Nodup) (h : Inv v)
    (hmovable : ∀ c ∈ cs, ∀ dst < v.disks.length, dst ≠ src → Movable v c dst) :
    Inv (migrateAll env src cs migrated v).2 := by
  induction cs generalizing v migrated with
  | nil => exact h
  | cons c cs ih =>
    obtain ⟨hc, hnodup⟩ := nodup_cons.mp hnodup
    unfold V2Store.migrateAll
    split
    · exact h
    rename_i dst hdst
    obtain ⟨hlt, hne⟩ := leastUsedDisk_spec hdst
    have hmoved := hmove v c dst h (hmovable c (.head _) dst hlt hne)
    have hrest : ∀ c' ∈ cs, ∀ dst' <
        (rebalanceOne env v c src dst true).2.disks.length, dst' ≠ src →
        Movable (rebalanceOne env v c src dst true).2 c' dst' := by
      intro c' hc' dst' hlt' hne'
      have hcc : c' ≠ c := fun heq => hc (heq ▸ hc')
      have htouches := rebalanceOne_touches env v c src dst true
      rw [htouches.disks_eq] at hlt'
      exact hframe _ _ _ _ (hmovable c' (.tail _ hc') dst' hlt' hne')
        (htouches.others c' hcc) htouches.places
    split
    · rename_i v' hcall
      rw [hcall] at hmoved hrest
      exact ih _ hnodup hmoved hrest
    · rename_i e v' hcall
      rw [hcall] at hmoved hrest
      exact ih _ hnodup hmoved hrest

theorem migrateDisk_invariant (env : Env) {srcIdx : Int}
    (hmove : ∀ v c (dst : Nat), Inv v → Movable v c dst →
      Inv (rebalanceOne env v c srcIdx.toNat dst true).2)
    (hframe : ∀ v v' c dst, Movable v c dst → AgreesOn v v' c → v'.places = v.places →
      Movable v' c dst) (h : Inv v)
    (hmovable : ∀ x ∈ scan (v.stores (false, srcIdx.toNat)), ∀ dst ∈ List.range v.disks.length,
      dst ≠ srcIdx.toNat → Movable v x.extentID dst) : Inv (migrateDisk env v srcIdx).2 := by
  unfold V2Store.migrateDisk
  split_ifs with hrange hone
  · exact h
  · split
    · exact h
    · rename_i extents hlist
      have hperm := env.enumerate_perm extents
      have hids : ((env.enumerate extents).map LiveExtent.extentID).Nodup :=
        (hperm.map _).nodup_iff.mpr (listExtents_nodup hlist)
      refine migrateAll_invariant env hmove hframe _ 0
        (hids.sublist (filter_sublist.map _)) h ?_
      intro c hc dst hlt
      obtain ⟨x, hx, rfl⟩ := mem_map.mp hc
      have hmem : x ∈ extents := hperm.mem_iff.mp (mem_filter.mp hx).1
      have hscan : scan (v.stores (false, srcIdx.toNat)) = extents := by
        unfold scan
        rw [show (v.stores (false, srcIdx.toNat)).listExtents = .ok extents from hlist]
      exact hmovable x (hscan ▸ hmem) dst (mem_range.mpr hlt)
  · exact h

end V2Store

end Nufs.Datanode
