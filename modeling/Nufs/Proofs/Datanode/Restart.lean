/-
What a restart makes of the location map.

A new datanode store enumerates its segment stores in order, first the data streams
and then the small ones, and the last listing of a chunk wins.  The invariant says
that this finds the location map again: a located chunk is listed at its location,
with the generation the map has, and by no store that is scanned after it, and a
chunk without a location is not listed at all.  Copies that moves leave behind,
older generations and tombstones that were never written can break it, so each step
must not leave a listing in a store that is scanned after the chunk's new location.
-/
import Nufs.Proofs.Datanode.ChunkMap
import Mathlib.Data.List.Induction

namespace Nufs.Datanode

open Nufs.Storage List AList SegmentStore Function

/-! ### Listings -/

namespace SegmentStore

variable {s s' : SegmentStore} {e : ExtentID} {g : Generation} {k : Key} {data : List UInt8}

/-- The generation a listing shows of an extent. -/
def shown (s : SegmentStore) (e : ExtentID) : Option Generation :=
  (s.listed e).map LiveExtent.generation

theorem shown_congr (h : ∀ g, s'.extents.lookup (e, g) = s.extents.lookup (e, g)) :
    s'.shown e = s.shown e := by
  have hiff : ∀ g, s'.shown e = some g ↔ s.shown e = some g := by
    intro g
    rw [shown, shown, listed_iff, listed_iff]
    simp only [isLive, UpTo, h]
  exact Option.ext hiff

/-- A write of the latest generation is listed, if nothing dead acknowledges it. -/
theorem shown_write (h : s.write (e, g) data = .ok s') (hupTo : s.UpTo e g)
    (hlive : ∀ x, s.extents.lookup (e, g) = some x → x.checksum = crc32c data →
      s.isLive (e, g) = true) : s'.shown e = some g := by
  refine listed_iff.mpr ⟨?_, ?_⟩
  · obtain ⟨-, -, ⟨rfl, x, hx, hsum⟩ | ⟨-, heq⟩⟩ := write_cases h
    · exact hlive x hx hsum
    · simp [isLive, heq]
  intro g' hg'
  by_cases hk : (e, g') = (e, g)
  · rw [(Prod.mk.inj hk).2]
    exact UInt64.le_refl _
  · rw [lookup_write_ne h hk] at hg'
    exact hupTo g' hg'

/-- A tombstone of what is listed hides every older generation, too. -/
theorem shown_delete (h : s.delete (e, g) = .ok s')
    (hshown : s.shown e = some g ∨ s.shown e = none) : s'.shown e = none := by
  rw [Option.eq_none_iff_forall_ne_some]
  intro g' hg'
  obtain ⟨hlive, hupTo⟩ := listed_iff.mp hg'
  have hbefore := isLive_of_isLive_delete h hlive
  have hne : g' ≠ g := by
    rintro rfl
    rw [isLive_of_delete h] at hlive
    simp at hlive
  -- The store knew the same generations before.
  have hknown : ∀ g1, (s.extents.lookup (e, g1)).isSome = (s'.extents.lookup (e, g1)).isSome := by
    intro g1
    by_cases hk : (e, g1) = (e, g)
    · obtain ⟨-, -, ⟨rfl, -⟩ | ⟨x, hx, heq⟩⟩ := delete_cases h
      · rfl
      · rw [hk, hx, heq, lookup_insert]
        rfl
    · rw [lookup_delete_ne h hk]
  have hshown' : s.shown e = some g' :=
    listed_iff.mpr ⟨hbefore, fun g1 hg1 => hupTo g1 (by rwa [← hknown])⟩
  rcases hshown with hg | hnone
  · rw [hg] at hshown'
    exact hne (Option.some.inj hshown').symm
  · rw [hnone] at hshown'
    simp at hshown'

/-- A tombstone lists nothing new. -/
theorem shown_tombstone_of_none (fails : Bool) (g : Generation) (h : s.shown e = none) :
    (s.tombstone fails (e, g)).shown e = none := by
  unfold tombstone
  split
  · rename_i s' hdelete
    split_ifs
    · exact h
    · exact shown_delete hdelete (.inr h)
  · exact h

theorem shown_tombstone (hopen : s.closed = false) (h : s.shown e = some g) :
    (s.tombstone false (e, g)).shown e = none := by
  obtain ⟨s', hdelete⟩ := exists_delete (e, g) hopen
  simp only [tombstone, hdelete, Bool.false_eq_true, if_false]
  exact shown_delete hdelete (.inl h)

/-- What a scan of an open store enters. -/
theorem mem_scan (hopen : s.closed = false) {x : LiveExtent} :
    x ∈ V2Store.scan s ↔ s.listed x.extentID = some x := by
  unfold V2Store.scan listExtents
  rw [if_neg (by simp [hopen])]
  simp only [mem_filterMap, mem_dedup, mem_map]
  constructor
  · rintro ⟨e, -, he⟩
    rw [listed_extentID he]
    exact he
  intro h
  refine ⟨x.extentID, ?_, h⟩
  have hshown : (s.listed x.extentID).map LiveExtent.generation = some x.generation := by
    rw [h]
    rfl
  obtain ⟨data, hlive⟩ := isLive_iff.mp (listed_iff.mp hshown).1
  refine ⟨(x.extentID, x.generation), ?_, rfl⟩
  rw [← AList.mem_keys, ← AList.lookup_isSome, show s.extents.lookup _ = _ from hlive]
  rfl

theorem scan_nodup (s : SegmentStore) : ((V2Store.scan s).map LiveExtent.extentID).Nodup := by
  unfold V2Store.scan
  split
  · rename_i extents h
    exact listExtents_nodup h
  · simp

end SegmentStore

namespace V2Store

variable {v v' : V2Store} {env : Env} {c : ChunkID}

/-! ### The scan -/

variable {i : Nat} {small : Bool} {extents : List LiveExtent} {s : SegmentStore}

theorem lookup_enterExtents_of_ne (h : ∀ x ∈ extents, x.extentID ≠ c)
    (m : AList fun _ : ChunkID => ChunkLoc) :
    (enterExtents i small extents m).lookup c = m.lookup c := by
  unfold enterExtents
  induction extents generalizing m with
  | nil => rfl
  | cons x extents ih =>
    rw [foldl_cons, ih fun y hy => h y (.tail _ hy)]
    exact lookup_insert_ne (h x (.head _)).symm

theorem lookup_enterExtents_of_mem (hnodup : (extents.map LiveExtent.extentID).Nodup)
    {x : LiveExtent} (hx : x ∈ extents) (m : AList fun _ : ChunkID => ChunkLoc) :
    (enterExtents i small extents m).lookup x.extentID = some ⟨i, x.generation, small⟩ := by
  unfold enterExtents
  induction extents generalizing m with
  | nil => simp at hx
  | cons y extents ih =>
    rw [map_cons, nodup_cons] at hnodup
    rw [foldl_cons]
    rcases mem_cons.mp hx with rfl | hx
    · have hne : ∀ y ∈ extents, y.extentID ≠ x.extentID :=
        fun y hy heq => hnodup.1 (heq ▸ mem_map_of_mem hy)
      have hrest : (enterExtents i small extents
          (m.insert x.extentID ⟨i, x.generation, small⟩)).lookup x.extentID =
          some ⟨i, x.generation, small⟩ := by
        rw [lookup_enterExtents_of_ne hne, lookup_insert]
      exact hrest
    · exact ih hnodup.2 hx _

/-- One store of a scan. -/
theorem lookup_enterScan (hopen : s.closed = false) (i : Nat) (small : Bool)
    (m : AList fun _ : ChunkID => ChunkLoc) (c : ChunkID) :
    (enterExtents i small (scan s) m).lookup c =
      match s.shown c with
      | some g => some ⟨i, g, small⟩
      | none => m.lookup c := by
  cases hshown : s.listed c with
  | none =>
    simp only [SegmentStore.shown, hshown, Option.map_none]
    refine lookup_enterExtents_of_ne (fun x hx heq => ?_) m
    rw [mem_scan hopen, heq, hshown] at hx
    simp at hx
  | some x =>
    simp only [SegmentStore.shown, hshown, Option.map_some]
    obtain rfl := listed_extentID hshown
    exact lookup_enterExtents_of_mem s.scan_nodup ((mem_scan hopen).mpr hshown) m

/-- All stores of a stream: the last listing wins. -/
theorem lookup_enterAll (small : Bool) (stores : List SegmentStore)
    (hopen : ∀ (i : Nat) s, stores[i]? = some s → SegmentStore.closed s = false)
    (m : AList fun _ : ChunkID => ChunkLoc) (c : ChunkID) :
    ((∀ (i : Nat) s, stores[i]? = some s → SegmentStore.shown s c = none) →
      (enterAll small stores m).lookup c = m.lookup c) ∧
      ∀ i s g, stores[i]? = some s → s.shown c = some g →
        (∀ j s', stores[j]? = some s' → i < j → SegmentStore.shown s' c = none) →
        (enterAll small stores m).lookup c = some ⟨i, g, small⟩ := by
  induction stores using List.reverseRecOn with
  | nil => simp [enterAll]
  | append_singleton stores last ih =>
    have heq : enterAll small (stores ++ [last]) m =
        enterExtents stores.length small (scan last) (enterAll small stores m) := by
      simp [enterAll, zipIdx_append]
    have hend : (stores ++ [last])[stores.length]? = some last := List.getElem?_concat_length
    have hleft : ∀ i s, stores[i]? = some s → (stores ++ [last])[i]? = some s := fun i s hi =>
      (List.getElem?_append_left (List.getElem?_eq_some_iff.mp hi).1).trans hi
    have hlast := lookup_enterScan (hopen _ last hend) stores.length small
      (enterAll small stores m) c
    obtain ⟨ihnone, ihsome⟩ := ih fun i s hi => hopen i s (hleft i s hi)
    rw [heq, hlast]
    refine ⟨fun hnone => ?_, fun i s g hi hs hlater => ?_⟩
    · rw [hnone _ last hend]
      exact ihnone fun i s hi => hnone i s (hleft i s hi)
    rcases Nat.lt_trichotomy i stores.length with hlt | rfl | hgt
    · rw [hlater _ last hend hlt]
      rw [List.getElem?_append_left hlt] at hi
      exact ihsome i s g hi hs fun j s' hj => hlater j s' (hleft j s' hj)
    · rw [hend, Option.some.injEq] at hi
      rw [hi, hs]
    · rw [List.getElem?_eq_none (by simp; omega)] at hi
      simp at hi

/-! ### The invariant -/

/-- `p` is scanned before `q`: data streams come first, then disks in order. -/
def Before (p q : Place) : Prop := p.1 < q.1 ∨ p.1 = q.1 ∧ p.2 < q.2
  deriving Decidable

/-- A scan finds this location. -/
structure Found (v : V2Store) (c : ChunkID) (loc : ChunkLoc) : Prop where
  has : v.Has loc.place
  shown : (v.stores loc.place).shown c = some loc.gen
  last : ∀ p, v.Has p → Before loc.place p → (v.stores p).shown c = none

/-- **The invariant.**  A scan of the stores finds the location map again. -/
structure Restorable (v : V2Store) : Prop where
  opened : ∀ p, (v.stores p).closed = false
  known : ∀ c loc, v.locOf.lookup c = some loc → v.Found c loc
  unknown : ∀ c, v.locOf.lookup c = none → ∀ p, v.Has p → (v.stores p).shown c = none

theorem Restorable.located (h : v.Restorable) : v.Located :=
  fun c loc hloc => (h.known c loc hloc).has

/-- Reads depend on the stores and the location map only. -/
theorem read_congr (hstores : v'.stores = v.stores)
    (hlocOf : v'.locOf.lookup c = v.locOf.lookup c) (hlen : v'.disks.length = v.disks.length)
    (hsmall : v'.small.length = v.small.length) : v'.read c = v.read c := by
  have hloc : v'.loc c = v.loc c := by simp only [V2Store.loc, hlocOf, hlen]
  have hindex : v'.backendIndex (v.loc c) = v.backendIndex (v.loc c) := by
    simp only [backendIndex, hlen, hsmall]
  have hat : (v'.backendAt (v.loc c)).store = (v.backendAt (v.loc c)).store := by
    have := congrFun hstores (v.backendIndex (v.loc c))
    simpa [backendAt, hindex, stores] using this
  simp only [V2Store.read, hloc, hat]

/-- The stores of one kind of stream, as a restart passes them on. -/
theorem getElem?_stores (v : V2Store) (small : Bool) (i : Nat) (s : SegmentStore) :
    ((v.streams small).map DiskBackend.store)[i]? = some s ↔
      v.Has (small, i) ∧ v.stores (small, i) = s := by
  simp only [List.getElem?_map, Option.map_eq_some_iff, Has, stores, backend]
  constructor
  · rintro ⟨b, hb, rfl⟩
    obtain ⟨hlt, rfl⟩ := List.getElem?_eq_some_iff.mp hb
    exact ⟨hlt, by simp [hlt]⟩
  · rintro ⟨hlt, rfl⟩
    exact ⟨(v.streams small)[i], by simp [hlt], by simp [hlt]⟩

/-- The location map of a restart is the one before it. -/
theorem Restorable.lookup_scan (h : v.Restorable) (c : ChunkID) :
    (enterAll true (v.small.map DiskBackend.store)
      (enterAll false (v.disks.map DiskBackend.store) ∅)).lookup c = v.locOf.lookup c := by
  have hat : ∀ (P : Nat → SegmentStore → Prop) small,
      (∀ i, v.Has (small, i) → P i (v.stores (small, i))) →
      ∀ i s, ((v.streams small).map DiskBackend.store)[i]? = some s → P i s := by
    intro P small hall i s hi
    obtain ⟨hhas, rfl⟩ := (getElem?_stores v small i s).mp hi
    exact hall i hhas
  have hopen := fun small => hat (fun _ s => s.closed = false) small fun i _ => h.opened _
  have hnone := hat fun _ s => s.shown c = none
  have hlast := fun i => hat fun j s => i < j → s.shown c = none
  have hdata := lookup_enterAll false (v.disks.map DiskBackend.store) (hopen false) ∅ c
  have hsmall := lookup_enterAll true (v.small.map DiskBackend.store) (hopen true)
    (enterAll false (v.disks.map DiskBackend.store) ∅) c
  cases hloc : v.locOf.lookup c with
  | none =>
    have hall := h.unknown c hloc
    rw [hsmall.1 (hnone true fun i hi => hall _ hi), hdata.1 (hnone false fun i hi => hall _ hi)]
    rfl
  | some loc =>
    have hfound := h.known c loc hloc
    obtain ⟨disk, gen, small⟩ := loc
    cases small with
    | true =>
      refine hsmall.2 disk _ gen ((getElem?_stores v true disk _).mpr ⟨hfound.has, rfl⟩)
        hfound.shown (hlast disk true fun j hj hlt => ?_)
      exact hfound.last _ hj (.inr ⟨rfl, hlt⟩)
    | false =>
      rw [hsmall.1 (hnone true fun i hi => hfound.last _ hi (.inl Bool.false_lt_true))]
      refine hdata.2 disk _ gen ((getElem?_stores v false disk _).mpr ⟨hfound.has, rfl⟩)
        hfound.shown (hlast disk false fun j hj hlt => ?_)
      exact hfound.last _ hj (.inr ⟨rfl, hlt⟩)

theorem stores_eq_getD (v : V2Store) (p : Place) :
    v.stores p = ((v.streams p.1).map DiskBackend.store).getD p.2 .empty := by
  simp only [stores, backend, List.getD_eq_getElem?_getD, List.getElem?_map]
  cases (v.streams p.1)[p.2]? <;> rfl

/-- **A restart** reads what was read before. -/
theorem Restorable.restart (h : v.Restorable) :
    ∃ w, v.restart = .ok w ∧ ∀ c, w.read c = v.read c := by
  have hlen : ¬ (0 < (v.small.map DiskBackend.store).length ∧
      (v.small.map DiskBackend.store).length ≠
        (newMultiV2Store (v.disks.map fun b => (b.store, b.dir))
          (by simpa using v.disks_pos)).disks.length) := by
    simp only [newMultiV2Store, length_map]
    rintro ⟨hpos, hne⟩
    rcases v.small_length with hnil | heq
    · simp [hnil] at hpos
    · exact hne heq
  refine ⟨_, dif_neg hlen, fun c => ?_⟩
  apply read_congr
  · funext p
    obtain ⟨small, i⟩ := p
    rw [stores_eq_getD, stores_eq_getD]
    cases small <;> simp [streams, newMultiV2Store, DiskBackend.adopt, comp_def]
  · have hscan := h.lookup_scan c
    simpa [newMultiV2Store, comp_def] using hscan
  · simp [newMultiV2Store]
  · simp

/-! ### Steps -/

theorem not_before_self (p : Place) : ¬ Before p p := by
  rintro (hlt | ⟨-, hlt⟩)
  · exact absurd hlt (by simp)
  · omega

theorem Found.congr {loc : ChunkLoc} (h : v.Found c loc) (hhas : ∀ p, v'.Has p ↔ v.Has p)
    (hshown : ∀ p, (v'.stores p).shown c = (v.stores p).shown c) : v'.Found c loc := by
  refine ⟨(hhas _).mpr h.has, (hshown _).trans h.shown, fun p hp hbefore => ?_⟩
  rw [hshown]
  exact h.last p ((hhas p).mp hp) hbefore

theorem Restorable.unchanged (h : v.Restorable) (hun : Unchanged v v') : v'.Restorable := by
  refine ⟨?_, fun c loc hloc => ?_, fun c hloc p hp => ?_⟩
  · rw [hun.stores_eq]
    exact h.opened
  · rw [hun.locOf_eq] at hloc
    exact (h.known c loc hloc).congr hun.has fun p => by rw [hun.stores_eq]
  · rw [hun.locOf_eq] at hloc
    rw [hun.stores_eq]
    exact h.unknown c hloc p ((hun.has _).mp hp)

/-- A call that touches one chunk, and locates or forgets it. -/
theorem Restorable.touches (h : v.Restorable) (htouches : Touches v v' c)
    (hknown : ∀ loc, v'.locOf.lookup c = some loc → v'.Found c loc)
    (hunknown : v'.locOf.lookup c = none → ∀ p, v.Has p → (v'.stores p).shown c = none) :
    v'.Restorable := by
  have hsame : ∀ c' ≠ c, ∀ p, (v'.stores p).shown c' = (v.stores p).shown c' :=
    fun c' hc p => shown_congr fun g => (htouches.others c' hc).stores p g
  refine ⟨htouches.opened h.opened, ?_, ?_⟩
  · intro c' loc hloc
    by_cases hc : c' = c
    · subst hc
      exact hknown loc hloc
    · rw [(htouches.others c' hc).locOf] at hloc
      exact (h.known c' loc hloc).congr htouches.has (hsame c' hc)
  · intro c' hloc p hp
    by_cases hc : c' = c
    · subst hc
      exact hunknown hloc p ((htouches.has _).mp hp)
    · rw [(htouches.others c' hc).locOf] at hloc
      rw [hsame c' hc]
      exact h.unknown c' hloc p ((htouches.has _).mp hp)

/--
A write is the last a scan finds of its chunk: its store knows no later generation
and no tombstone acknowledges it, and stores that are scanned later list nothing of
the chunk, except a small extent that is outgrown and tombstoned.
-/
def ScanWrite (env : Env) (v : V2Store) (c : ChunkID) (gen : Generation) (data : List UInt8) :
    Prop :=
  (∀ x, (v.stores (v.route c gen data).place).extents.lookup (c, gen) = some x →
      x.checksum = crc32c data →
      (v.stores (v.route c gen data).place).isLive (c, gen) = true) ∧
    (v.stores (v.route c gen data).place).UpTo c gen ∧
    ∀ p ∈ v.places, Before (v.route c gen data).place p →
      (v.stores p).shown c = none ∨
        env.tombstoneFails c = false ∧ (v.outgrown c data).map ChunkLoc.place = some p
  deriving Decidable

variable {gen : Generation} {data : List UInt8} {remove : Bool} {idx : Nat} {dir : String}

/-- A store lists nothing of the chunk once the one that may list it is tombstoned. -/
theorem Restorable.shown_tombstoned (h : v.Restorable) {p q target : Place} {fails : Bool}
    (hsource : (v.stores q).shown c = some gen) (hne : p ≠ target)
    (hshown : (v.stores p).shown c = none ∨ fails = false ∧ p = q) (s : SegmentStore) :
    (Function.update (Function.update v.stores target s) q
      ((v.stores q).tombstone fails (c, gen)) p).shown c = none := by
  rw [update_apply]
  split_ifs with hp
  · subst hp
    rcases hshown with hnone | ⟨hok, -⟩
    · exact shown_tombstone_of_none _ _ hnone
    · rw [hok]
      exact shown_tombstone (h.opened _) hsource
  · rw [update_of_ne hne]
    exact hshown.resolve_right fun hq => hp hq.2

/-- What a later store shows once an outgrown extent is tombstoned. -/
theorem Restorable.shown_storesAfterWrite (h : v.Restorable) (s : SegmentStore) {p : Place}
    (hne : p ≠ (v.route c gen data).place) (hshown : (v.stores p).shown c = none ∨
      env.tombstoneFails c = false ∧ (v.outgrown c data).map ChunkLoc.place = some p) :
    (v.storesAfterWrite env c gen data s p).shown c = none := by
  cases hgrown : v.outgrown c data with
  | none =>
    rw [hgrown] at hshown
    rw [storesAfterWrite_fits env hgrown, update_of_ne hne]
    simpa using hshown
  | some loc =>
    rw [hgrown, Option.map_some, Option.some.injEq] at hshown
    have hfound := h.known c loc (outgrown_place hgrown gen).1
    rw [storesAfterWrite_outgrown env hgrown]
    exact h.shown_tombstoned hfound.shown hne (hshown.imp_right (And.imp_right Eq.symm)) s

theorem Restorable.writeGen (h : v.Restorable) (hscan : ScanWrite env v c gen data) :
    (writeGen env v c gen data).2.Restorable := by
  rcases writeGen_cases env h.located c gen data with
    ⟨e, v', hcall, hun⟩ | ⟨s, v', hcall, hwrite, hleaves⟩
  · rw [hcall]
    exact h.unchanged hun
  rw [hcall]
  obtain ⟨hlive, hupTo, hlater⟩ := hscan
  refine h.touches (touches_write hwrite hleaves) ?_ (by simp [hleaves.locOf_eq])
  intro loc hloc
  rw [hleaves.locOf_eq, lookup_insert, Option.some.injEq] at hloc
  subst hloc
  refine ⟨(hleaves.has _).mpr (has_route h.located c gen data), ?_, fun p hp hbefore => ?_⟩
  · rw [hleaves.stores_eq, storesAfterWrite_route, gen_route]
    exact shown_write hwrite hupTo hlive
  have hne : p ≠ (v.route c gen data).place := by
    rintro rfl
    exact not_before_self _ hbefore
  rw [hleaves.stores_eq]
  exact h.shown_storesAfterWrite s hne (hlater p (mem_places.mpr ((hleaves.has p).mp hp)) hbefore)

/-- No other store lists the chunk. -/
def ScanDelete (v : V2Store) (c : ChunkID) : Prop :=
  ∀ p ∈ v.places, p ≠ (v.loc c).place → (v.stores p).shown c = none
  deriving Decidable

theorem Restorable.delete (h : v.Restorable) (hscan : v.ScanDelete c) :
    (V2Store.delete v c).2.Restorable := by
  rcases delete_cases h.located c with ⟨e, v', hcall, hun⟩ | ⟨s, v', hcall, hdelete, hleaves⟩
  · rw [hcall]
    exact h.unchanged hun
  rw [hcall]
  refine h.touches (touches_delete hdelete hleaves) (by simp [hleaves.locOf_eq]) ?_
  intro _ p hp
  rw [hleaves.stores_eq, update_apply]
  split_ifs with hpl
  · apply shown_delete hdelete
    cases hloc : v.locOf.lookup c with
    | none => exact .inr (h.unknown c hloc _ (hpl ▸ hp))
    | some loc =>
      rw [loc_of_lookup h.located hloc]
      exact .inl (h.known c loc hloc).shown
  · exact hscan p (mem_places.mpr hp) hpl

/--
A move is the last a scan finds of its chunk: the target knows no later generation
and no tombstone acknowledges the copy, and stores that are scanned after the target
list nothing of the chunk, except a source that is tombstoned.
-/
def ScanMove (env : Env) (v : V2Store) (c : ChunkID) (src dst : Nat) (remove : Bool) : Prop :=
  ∀ loc, v.locOf.lookup c = some loc → loc.disk = src →
    (loc.small = true → (v.stores (false, src)).isLive (c, loc.gen) = false) ∧
    (loc.small = false →
      ((v.stores (false, dst)).extents.lookup (c, loc.gen) = none ∨
        (v.stores (false, dst)).isLive (c, loc.gen) = true) ∧
      (v.stores (false, dst)).UpTo c loc.gen ∧
      ∀ p ∈ v.places, Before (false, dst) p →
        (v.stores p).shown c = none ∨
          remove = true ∧ env.tombstoneFails c = false ∧ p = (false, src))
  deriving Decidable

theorem Restorable.rebalanceOne (h : v.Restorable) {fromDisk toDisk : Int}
    (hscan : ScanMove env v c fromDisk.toNat toDisk.toNat remove) :
    (rebalanceOne env v c fromDisk toDisk remove).2.Restorable := by
  rcases rebalanceOne_cases env v c fromDisk toDisk remove with
    ⟨e, v', hcall, hun⟩ |
      ⟨loc, data, s, v', hcall, hne, -, hto, hloc, hdisk, hlive, hwrite, hleaves⟩
  · rw [hcall]
    exact h.unchanged hun
  rw [hcall]
  obtain ⟨hsmall, hdata⟩ := hscan loc hloc hdisk
  have hfalse : loc.small = false := by
    rw [← Bool.not_eq_true]
    intro htrue
    have := hsmall htrue
    rw [hlive.isLive] at this
    simp at this
  obtain ⟨hheld, hupTo, hlater⟩ := hdata hfalse
  have hplace : loc.place = (false, fromDisk.toNat) := by rw [ChunkLoc.place, hfalse, hdisk]
  have hsource := (h.known c loc hloc).shown
  rw [hplace] at hsource
  refine h.touches (touches_move hwrite hleaves) ?_ (by simp [hleaves.locOf_eq])
  intro loc' hloc'
  rw [hleaves.locOf_eq, lookup_insert, Option.some.injEq] at hloc'
  subst hloc'
  refine ⟨(hleaves.has _).mpr hto, ?_, fun p hp hbefore => ?_⟩
  · rw [hleaves.stores_eq, ChunkLoc.place, storesAfterMove_target hne]
    refine shown_write hwrite hupTo fun x hx _ => hheld.resolve_left ?_
    simp [hx]
  have hnd : p ≠ (false, toDisk.toNat) := by
    rintro rfl
    exact not_before_self _ hbefore
  have hshown := hlater p (mem_places.mpr ((hleaves.has p).mp hp)) hbefore
  rw [hleaves.stores_eq]
  cases remove with
  | false =>
    simp only [storesAfterMove, Bool.false_eq_true, if_false]
    rw [update_of_ne hnd]
    simpa using hshown
  | true =>
    simp only [storesAfterMove, if_true]
    exact h.shown_tombstoned hsource hnd (hshown.imp_right And.right) s

theorem ScanMove.congr {src dst : Nat} (h : ScanMove env v c src dst remove)
    (hagree : AgreesOn v v' c) (hplaces : v'.places = v.places) :
    ScanMove env v' c src dst remove := by
  have hshown : ∀ p, (v'.stores p).shown c = (v.stores p).shown c :=
    fun p => shown_congr fun g => hagree.stores p g
  intro loc hloc hdisk
  rw [hagree.locOf] at hloc
  simp only [SegmentStore.isLive, SegmentStore.UpTo, hagree.stores, hshown, hplaces]
  exact h loc hloc hdisk

/-- What a migration may move: the chunks listed on the disk, to any other disk. -/
def ScanMigrate (env : Env) (v : V2Store) (src : Nat) : Prop :=
  ∀ x ∈ scan (v.stores (false, src)), ∀ dst ∈ List.range v.disks.length, dst ≠ src →
    ScanMove env v x.extentID src dst true
  deriving Decidable

theorem Restorable.migrateDisk (h : v.Restorable) {srcIdx : Int}
    (hscan : ScanMigrate env v srcIdx.toNat) : (migrateDisk env v srcIdx).2.Restorable := by
  have hmove : ∀ (v : V2Store) c (dst : Nat), v.Restorable →
      ScanMove env v c srcIdx.toNat dst true →
      (V2Store.rebalanceOne env v c srcIdx.toNat dst true).2.Restorable :=
    fun v c dst h hscan => h.rebalanceOne hscan
  exact migrateDisk_invariant env hmove
    (fun _ _ _ _ hscan hagree hplaces => hscan.congr hagree hplaces) h hscan

/-! ### Adopting a retired disk again -/

section Adopt

variable (data : DiskBackend) (extents : List LiveExtent)
  {small : Option (DiskBackend × List LiveExtent)} (hsmall : small.isSome = (v.small ≠ [] : Bool))

variable {p : Place}

theorem streams_appendDisk (stream : Bool) : ∃ added,
    (v.appendDisk data extents small hsmall).streams stream = v.streams stream ++ added := by
  cases stream with
  | false | true => exact ⟨_, rfl⟩

/-- The stores that were there stay where they are. -/
theorem stores_appendDisk (h : v.Has p) : (v.appendDisk data extents small hsmall).Has p ∧
    (v.appendDisk data extents small hsmall).stores p = v.stores p := by
  obtain ⟨added, hadded⟩ := streams_appendDisk data extents hsmall p.1
  simp only [Has, stores, backend, hadded, List.getD_eq_getElem?_getD]
  constructor
  · rw [length_append]
    exact Nat.lt_add_right _ h
  · rw [List.getElem?_append_left h]

theorem stores_appendDisk_data :
    (v.appendDisk data extents small hsmall).Has (false, v.disks.length) ∧
      (v.appendDisk data extents small hsmall).stores (false, v.disks.length) = data.store := by
  constructor
  · simp [Has, streams, appendDisk]
  · simp [stores, backend, streams, appendDisk]

theorem stores_appendDisk_small {b : DiskBackend} {xs : List LiveExtent}
    (hb : small = some (b, xs)) :
    (v.appendDisk data extents small hsmall).Has (true, v.disks.length) ∧
      (v.appendDisk data extents small hsmall).stores (true, v.disks.length) = b.store := by
  subst hb
  have hne : v.small ≠ [] := by simpa using hsmall
  have hlen := v.small_length.resolve_left hne
  constructor
  · simp [Has, streams, appendDisk, hlen]
  · simp [stores, backend, streams, appendDisk, ← hlen]

end Adopt

theorem closeDisk_leaves (v : V2Store) (i : Nat) :
    (v.closeDisk i).locOf = v.locOf ∧ (v.closeDisk i).disks.length = v.disks.length ∧
      (v.closeDisk i).small.length = v.small.length ∧
      ∀ p, p ≠ (false, i) → p ≠ (true, i) → (v.closeDisk i).stores p = v.stores p := by
  refine ⟨by simp [closeDisk], by simp [closeDisk], by simp [closeDisk], ?_⟩
  rintro ⟨stream, j⟩ hdata hsmall
  simp only [stores, closeDisk, backend_modifyBackend]
  rw [if_neg fun h => hsmall (Prod.ext h.1 h.2.1), if_neg fun h => hdata (Prod.ext h.1 h.2.1)]

/-- Every chunk a disk lists is located there; copies that moves left behind are not. -/
def OwnsListed (v : V2Store) (i : Nat) : Prop :=
  ∀ small, ∀ x ∈ scan (v.stores (small, i)),
    v.locOf.lookup x.extentID = some ⟨i, x.generation, small⟩
  deriving Decidable

theorem OwnsListed.lookup (h : v.OwnsListed i) (hopen : (v.stores (small, i)).closed = false)
    {g : Generation} (hshown : (v.stores (small, i)).shown c = some g) :
    v.locOf.lookup c = some ⟨i, g, small⟩ := by
  obtain ⟨x, hx, rfl⟩ := Option.map_eq_some_iff.mp hshown
  obtain rfl := listed_extentID hx
  exact h small x ((mem_scan hopen).mpr hx)

theorem scan_eq (h : s.listExtents = .ok extents) : scan s = extents := by
  unfold scan
  rw [h]

theorem exists_listExtents (h : s.closed = false) : ∃ extents, s.listExtents = .ok extents := by
  unfold SegmentStore.listExtents
  rw [if_neg (by simp [h])]
  exact ⟨_, rfl⟩

/-- The chunk is located with the same store behind it, or nowhere in both. -/
def SamePlace (v u : V2Store) (c : ChunkID) : Prop :=
  (u.locOf.lookup c = none ∧ v.locOf.lookup c = none) ∨
    ∃ loc loc', v.locOf.lookup c = some loc ∧ u.locOf.lookup c = some loc' ∧ u.Has loc'.place ∧
      u.stores loc'.place = v.stores loc.place ∧ loc'.gen = loc.gen

theorem read_of_samePlace (hlocated : v.Located) {u : V2Store} (h : ∀ c, SamePlace v u c)
    (hfirst : u.stores (false, 0) = v.stores (false, 0)) (c : ChunkID) : u.read c = v.read c := by
  have hlocated' : u.Located := by
    intro c loc hloc
    rcases h c with ⟨hnone, -⟩ | ⟨_, loc', -, hloc', hhas, -⟩
    · rw [hnone] at hloc
      simp at hloc
    · rw [hloc', Option.some.injEq] at hloc
      exact hloc ▸ hhas
  rw [read_eq hlocated', read_eq hlocated]
  rcases h c with ⟨hnone, hnone'⟩ | ⟨loc, loc', hloc, hloc', -, hstores, hgen⟩
  · rw [loc_of_unknown hnone, loc_of_unknown hnone']
    exact congrArg (SegmentStore.read · _) hfirst
  · rw [loc_of_lookup hlocated' hloc', loc_of_lookup hlocated hloc, hstores, hgen]

/-- A chunk the disk does not list stays where it is. -/
theorem Restorable.samePlace (h : v.Restorable) {u : V2Store}
    (hkept : ∀ p, v.Has p → p ≠ (false, idx) → p ≠ (true, idx) →
      u.Has p ∧ u.stores p = v.stores p)
    (hshown : ∀ stream, (v.stores (stream, idx)).shown c = none)
    (hlookup : u.locOf.lookup c = v.locOf.lookup c) : SamePlace v u c := by
  cases hloc : v.locOf.lookup c with
  | none => exact .inl ⟨hlookup.trans hloc, hloc⟩
  | some loc =>
    have hfound := h.known c loc hloc
    have hplace : ∀ stream, loc.place ≠ (stream, idx) := by
      intro stream heq
      simpa [← heq, hfound.shown] using hshown stream
    obtain ⟨hhas, hsame⟩ := hkept _ hfound.has (hplace false) (hplace true)
    exact .inr ⟨loc, loc, hloc, hlookup.trans hloc, hhas, hsame, rfl⟩

/-- A chunk the disk lists follows it to its new slot. -/
theorem OwnsListed.samePlace (howns : v.OwnsListed idx) {stream : Bool}
    (hopen : (v.stores (stream, idx)).closed = false) {g : Generation}
    (hshown : (v.stores (stream, idx)).shown c = some g) {u : V2Store} {n : Nat}
    (hlookup : u.locOf.lookup c = some ⟨n, g, stream⟩)
    (hnew : u.Has (stream, n) ∧ u.stores (stream, n) = v.stores (stream, idx)) :
    SamePlace v u c :=
  .inr ⟨_, _, howns.lookup hopen hshown, hlookup, hnew.1, hnew.2, rfl⟩

/-- Where an adopted disk is appended, its listings win. -/
theorem Restorable.read_appendDisk (h : v.Restorable) (hidx : idx ≠ 0)
    (howns : v.OwnsListed idx) {w : V2Store}
    (hlocOf : w.locOf = v.locOf) (hhas : ∀ p, v.Has p → w.Has p)
    (hstores : ∀ p, p ≠ (false, idx) → p ≠ (true, idx) → w.stores p = v.stores p)
    {data : DiskBackend} (hdata : data.store = v.stores (false, idx))
    {small : Option (DiskBackend × List LiveExtent)}
    (hsmall : small.isSome = (w.small ≠ [] : Bool)) (hsome : ∀ b xs, small = some (b, xs) →
      b.store = v.stores (true, idx) ∧ xs = scan (v.stores (true, idx)))
    (hnone : small = none → ∀ c, (v.stores (true, idx)).shown c = none) (c : ChunkID) :
    (w.appendDisk data (scan (v.stores (false, idx))) small hsmall).read c = v.read c := by
  have hkept p (hp : v.Has p) hd hs :=
    (stores_appendDisk data (scan (v.stores (false, idx))) hsmall (hhas p hp)).imp_right
      fun hsame => hsame.trans (hstores p hd hs)
  refine read_of_samePlace h.located (fun c => ?_)
    (hkept _ (has_first _) (by simpa using hidx.symm) (by simp)).2 c
  have hmoved := stores_appendDisk_data data (scan (v.stores (false, idx))) hsmall
  rw [hdata] at hmoved
  have hdata := lookup_enterScan (h.opened (false, idx)) w.disks.length false w.locOf c
  -- Without a listing in the small stream, the data stream decides.
  have hdecides (hs : (v.stores (true, idx)).shown c = none) (hlookup : AList.lookup c
      (w.appendDisk data (scan (v.stores (false, idx))) small hsmall).locOf = _) := by
    replace hlookup := hlookup.trans hdata
    cases hd : (v.stores (false, idx)).shown c with
    | none =>
      rw [hd, hlocOf] at hlookup
      exact h.samePlace hkept (Bool.forall_bool.mpr ⟨hd, hs⟩) hlookup
    | some g =>
      rw [hd] at hlookup
      exact howns.samePlace (h.opened _) hd hlookup hmoved
  cases small with
  | none => exact hdecides (hnone rfl c) rfl
  | some small =>
    obtain ⟨b, xs⟩ := small
    obtain ⟨hb, rfl⟩ := hsome b xs rfl
    have hlookup := lookup_enterScan (h.opened (true, idx)) w.disks.length true
      (enterExtents w.disks.length false (scan (v.stores (false, idx))) w.locOf) c
    cases hs : (v.stores (true, idx)).shown c with
    | none =>
      rw [hs] at hlookup
      exact hdecides hs hlookup
    | some g =>
      rw [hs] at hlookup
      have hnew := stores_appendDisk_small data (scan (v.stores (false, idx))) hsmall rfl
      rw [hb] at hnew
      exact howns.samePlace (h.opened _) hs hlookup hnew

/-- **Adopting a retired disk again** reads what was read before. -/
theorem Restorable.addDisk (h : v.Restorable) (hretired : v.retiredDiskIndexFor dir = some idx)
    (hidx : idx ≠ 0) (howns : v.OwnsListed idx)
    {factory : String → Except Err (SegmentStore × Option SegmentStore)}
    {small : Option SegmentStore} (hfactory : factory dir = .ok (v.stores (false, idx), small))
    (hsmall : v.small ≠ [] → small = some (v.stores (true, idx))) :
    (addDisk factory v dir).1 = .ok v.disks.length ∧
      ∀ c, (addDisk factory v dir).2.read c = v.read c := by
  obtain ⟨hlocOf, hdisks, hsmallLen, hstores⟩ := closeDisk_leaves v idx
  have hhas : ∀ p, v.Has p → (v.closeDisk idx).Has p := by
    rintro ⟨stream, i⟩ hp
    cases stream with
    | false => simpa [Has, streams, hdisks] using hp
    | true => simpa [Has, streams, hsmallLen] using hp
  have hnil : (v.closeDisk idx).small = [] ↔ v.small = [] := by
    rw [← length_eq_zero_iff, hsmallLen, length_eq_zero_iff]
  obtain ⟨extents, hlist⟩ := exists_listExtents (h.opened (false, idx))
  obtain rfl := scan_eq hlist
  by_cases hs : v.small = []
  · have hempty : ∀ c, (v.stores (true, idx)).shown c = none := by
      intro c
      have : v.stores (true, idx) = .empty := by simp [stores_eq_getD, streams, hs]
      rw [this]
      rfl
    simp only [V2Store.addDisk, hretired, hfactory, hlist]
    rw [dif_pos (hnil.mpr hs), hdisks]
    exact ⟨rfl, h.read_appendDisk hidx howns hlocOf hhas hstores (by rfl) (by simp [hnil, hs])
      (by simp) fun _ => hempty⟩
  · obtain ⟨smallExtents, hlist'⟩ := exists_listExtents (h.opened (true, idx))
    obtain rfl := scan_eq hlist'
    simp only [V2Store.addDisk, hretired, hfactory, hlist, hsmall hs, hlist']
    rw [dif_neg (fun heq => hs (hnil.mp heq)), hdisks]
    refine ⟨rfl, h.read_appendDisk hidx howns hlocOf hhas hstores (by rfl) (by simp [hnil, hs])
      ?_ (by simp)⟩
    rintro b xs heq
    cases heq
    exact ⟨rfl, rfl⟩

end V2Store

/-! ### Runs -/

namespace Session

/-- **The condition on a call**, in the state it finds. -/
def KeepsScan (s : Session) : Env × Call → Prop
  | (env, .write c data) => V2Store.ScanWrite env s.store c (s.store.nextLoc c).2 data
  | (env, .writeGen c gen data) => V2Store.ScanWrite env s.store c gen data
  | (_, .delete c) => s.store.ScanDelete c
  | (env, .rebalanceOne c fromDisk toDisk) =>
    V2Store.ScanMove env s.store c fromDisk.toNat toDisk.toNat false
  | (env, .migrateDisk srcIdx) => V2Store.ScanMigrate env s.store srcIdx.toNat
  | (_, .removeDisk _) => True

instance (s : Session) (a : Env × Call) : Decidable (s.KeepsScan a) :=
  match a with
  | (_, .write _ _) | (_, .writeGen _ _ _) => inferInstanceAs (Decidable (V2Store.ScanWrite ..))
  | (_, .delete c) => inferInstanceAs (Decidable (s.store.ScanDelete c))
  | (_, .rebalanceOne _ _ _) => inferInstanceAs (Decidable (V2Store.ScanMove ..))
  | (_, .migrateDisk _) => inferInstanceAs (Decidable (V2Store.ScanMigrate ..))
  | (_, .removeDisk _) => .isTrue trivial

theorem restorable_call {s : Session} (h : s.store.Restorable) (env : Env) (a : Call)
    (hkeeps : s.KeepsScan (env, a)) : (s.call env a).store.Restorable := by
  cases a with
  | write c data =>
    rw [call, store_note, V2Store.write_eq_writeGen]
    exact h.writeGen hkeeps
  | writeGen c gen data =>
    rw [call, store_note]
    exact h.writeGen hkeeps
  | delete c =>
    rw [call, store_note]
    exact h.delete hkeeps
  | rebalanceOne c fromDisk toDisk => exact h.rebalanceOne hkeeps
  | migrateDisk srcIdx => exact h.migrateDisk hkeeps
  | removeDisk idx => exact h.unchanged (V2Store.unchanged_removeDisk s.store idx)

theorem restorable_new (dirs : List String) (h : 0 < dirs.length) (small : Bool) :
    (new dirs h small).store.Restorable := by
  refine ⟨fun p => ?_, by simp [new], fun c _ p _ => ?_⟩
  · rw [stores_new]
    rfl
  · rw [stores_new]
    rfl

/--
**Restart keeps the chunk map.**  After every sequence of calls that meet the
condition, a new datanode store over the same segment stores reads every chunk as
before; and so does the store itself after a retired disk, other than the first, is
adopted again, if every chunk that disk lists is located there.
-/
theorem reads_survive_restart (dirs : List String) (h : 0 < dirs.length) (small : Bool)
    (calls : List (Env × Call)) (hmeets : Guarded.Meets step KeepsScan calls (new dirs h small))
    (s : Session) (hrun : Guarded.run step calls (new dirs h small) = some s) :
    (∃ w, s.store.restart = .ok w ∧ ∀ c, w.read c = s.store.read c) ∧
      ∀ dir idx, s.store.retiredDiskIndexFor dir = some idx → idx ≠ 0 → s.store.OwnsListed idx →
        ∀ (factory : String → Except Err (SegmentStore × Option SegmentStore))
          (reopened : Option SegmentStore),
          factory dir = .ok (s.store.stores (false, idx), reopened) →
          (s.store.small ≠ [] → reopened = some (s.store.stores (true, idx))) →
          (s.store.addDisk factory dir).1 = .ok s.store.disks.length ∧
            ∀ c, (s.store.addDisk factory dir).2.read c = s.store.read c := by
  have hrestorable := run_invariant (P := fun s => s.store.Restorable)
    (fun _ env a hinv => restorable_call hinv env a) (restorable_new dirs h small) hmeets hrun
  exact ⟨hrestorable.restart, fun dir idx hretired hidx howns factory reopened hfactory hreopened =>
    hrestorable.addDisk hretired hidx howns hfactory hreopened⟩

/-- Two chunks on two disks, one overwritten; then the second disk is retired. -/
def retiring : List (Env × Call) :=
  [(calm, .write 7 [5]), (calm, .write 8 [1]), (calm, .write 7 [6]), (calm, .removeDisk 1)]

/-- A restart and the second disk's return change no read. -/
theorem retired_disk_returns :
    ∃ s, Guarded.run step retiring (new ["a", "b"] (by decide) false) = some s ∧
      (∃ w, s.store.restart = .ok w ∧ ∀ c, w.read c = s.store.read c) ∧
      ∀ c, (s.store.addDisk (fun _ => .ok (s.store.stores (false, 1), none)) "b").2.read c =
        s.store.read c := by
  have hmeets : Guarded.Meets step KeepsScan retiring (new ["a", "b"] (by decide) false) := by
    decide +kernel
  have hend : (Guarded.run step retiring (new ["a", "b"] (by decide) false)).map (fun s =>
      (s.store.retiredDiskIndexFor "b", decide (s.store.OwnsListed 1), s.store.small.length)) =
      some (some 1, true, 0) := by decide +kernel
  obtain ⟨s, hs, heq⟩ := Option.map_eq_some_iff.mp hend
  simp only [Prod.mk.injEq, decide_eq_true_eq, length_eq_zero_iff] at heq
  obtain ⟨hretired, howns, hsmall⟩ := heq
  obtain ⟨hrestart, hadopt⟩ := reads_survive_restart _ _ _ _ hmeets s hs
  exact ⟨s, hs, hrestart, (hadopt "b" 1 hretired (by decide) howns
    (fun _ => .ok (s.store.stores (false, 1), none)) none rfl fun hne => absurd hsmall hne).2⟩

/-- A copy that a move left on the second disk is older than the chunk; a restart brings it back. -/
theorem stale_copy_after_restart :
    (Guarded.run step [(calm, .write 8 [1]), (calm, .write 7 [5]), (calm, .rebalanceOne 7 1 0),
        (calm, .write 7 [6])] (new ["a", "b"] (by decide) false)).map (fun s =>
          (s.store.read 7, s.store.restart.toOption.map fun w => w.read 7)) =
      some (.ok ([6], crc32c [6]), some (.ok ([5], crc32c [5]))) := by
  decide +kernel

end Session

end Nufs.Datanode
