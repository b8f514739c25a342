/-
Fencing by the generations the metadata service issues.

A segment store fences one extent at one generation, in itself; the location map takes
whatever was written last.  Followed across stores, the fence holds if a write comes
either at a generation above every one any store of the node knows of the chunk, or
where its own payload already is, or where the segment store refuses it.  The
invariant then ties the acknowledged payloads to the extents that remember them: an
extent, live or tombstoned, keeps the payload it was written with.
-/
import Nufs.Proofs.Datanode.ChunkMap

namespace Nufs.Datanode

open Nufs.Storage AList Option SegmentStore Function

namespace V2Store

variable {v v' : V2Store} {env : Env} {c : ChunkID} {gen : Generation} {data : List UInt8}

/-- A store of the node remembers this payload for a chunk at a generation. -/
def Remembers (stores : Place → SegmentStore) (c : ChunkID) (g : Generation) (d : List UInt8) :
    Prop :=
  ∃ p e, (stores p).extents.lookup (c, g) = some e ∧ e.data = d

/-- The generation a read serves. -/
def served (v : V2Store) (c : ChunkID) : Option Generation :=
  match v.read c with
  | .ok _ => some (v.loc c).gen
  | .error _ => none

end V2Store

namespace SegmentStore

variable {s s' : SegmentStore} {k : Key} {data : List UInt8}

/-- Every payload of `s` is remembered by `s'`. -/
def KeptBy (s s' : SegmentStore) : Prop :=
  ∀ k e, s.extents.lookup k = some e → ∃ e', s'.extents.lookup k = some e' ∧ e'.data = e.data

theorem keptBy_refl (s : SegmentStore) : s.KeptBy s := fun _ e he => ⟨e, he, rfl⟩

theorem write_keptBy (h : s.write k data = .ok s') : s.KeptBy s' := by
  intro k' e he
  by_cases hk : k' = k
  · subst hk
    obtain ⟨-, -, ⟨rfl, -⟩ | ⟨hnone, -⟩⟩ := write_cases h
    · exact ⟨e, he, rfl⟩
    · rw [hnone] at he
      simp at he
  · refine ⟨e, ?_, rfl⟩
    rw [lookup_write_ne h hk]
    exact he

theorem delete_keptBy (h : s.delete k = .ok s') : s.KeptBy s' ∧ s'.KeptBy s := by
  obtain ⟨-, -, ⟨rfl, -⟩ | ⟨x, hx, heq⟩⟩ := delete_cases h
  · exact ⟨keptBy_refl _, keptBy_refl _⟩
  refine ⟨fun k' e he => ?_, fun k' e he => ?_⟩
  · by_cases hk : k' = k
    · subst hk
      obtain rfl := some.inj (he.symm.trans hx)
      exact ⟨.tombstoned e.data, by rw [heq, lookup_insert], rfl⟩
    · exact ⟨e, by rw [heq, lookup_insert_ne hk]; exact he, rfl⟩
  by_cases hk : k' = k
  · subst hk
    rw [heq, lookup_insert] at he
    cases he
    exact ⟨x, hx, rfl⟩
  · rw [heq, lookup_insert_ne hk] at he
    exact ⟨e, he, rfl⟩

theorem tombstone_keptBy (fails : Bool) (k : Key) (s : SegmentStore) :
    s.KeptBy (s.tombstone fails k) ∧ (s.tombstone fails k).KeptBy s := by
  unfold tombstone
  split
  · rename_i s' hdelete
    split_ifs
    · exact ⟨keptBy_refl _, keptBy_refl _⟩
    · exact delete_keptBy hdelete
  · exact ⟨keptBy_refl _, keptBy_refl _⟩

end SegmentStore

namespace V2Store

variable {v v' : V2Store} {env : Env} {c : ChunkID} {gen : Generation} {data : List UInt8}

/-! ### What a node remembers -/

section Remembers

variable {stores : Place → SegmentStore} {p : Place} {s : SegmentStore} {c' : ChunkID}
  {g : Generation} {d : List UInt8}

theorem Remembers.update (h : Remembers stores c g d) (hkept : (stores p).KeptBy s) :
    Remembers (Function.update stores p s) c g d := by
  obtain ⟨q, e, he, rfl⟩ := h
  by_cases hq : q = p
  · subst hq
    obtain ⟨e', he', hd⟩ := hkept _ e he
    refine ⟨q, e', ?_, hd⟩
    rw [update_self]
    exact he'
  · refine ⟨q, e, ?_, rfl⟩
    rw [update_of_ne hq]
    exact he

/-- A tombstone changes nothing that is remembered. -/
theorem remembers_update (hkept : (stores p).KeptBy s) (hkept' : s.KeptBy (stores p)) :
    Remembers (Function.update stores p s) c g d ↔ Remembers stores c g d := by
  refine ⟨fun h => ?_, fun h => h.update hkept⟩
  have hback := h.update (p := p) (s := stores p) (by rwa [update_self])
  rwa [update_idem, update_eq_self] at hback

/-- A write of a new extent is remembered, beside what was. -/
theorem remembers_insert (hnone : (stores p).extents.lookup (c, gen) = none)
    (hs : s.extents = (stores p).extents.insert (c, gen) (.live data)) :
    Remembers (Function.update stores p s) c' g d ↔
      Remembers stores c' g d ∨ (c' = c ∧ g = gen ∧ d = data) := by
  constructor
  · rintro ⟨q, e, he, rfl⟩
    by_cases hq : q = p
    · subst hq
      rw [update_self, hs] at he
      by_cases hk : (c', g) = (c, gen)
      · cases hk
        rw [lookup_insert] at he
        cases he
        exact .inr ⟨rfl, rfl, rfl⟩
      · rw [lookup_insert_ne hk] at he
        exact .inl ⟨q, e, he, rfl⟩
    · rw [update_of_ne hq] at he
      exact .inl ⟨q, e, he, rfl⟩
  · rintro (⟨q, e, he, rfl⟩ | ⟨rfl, rfl, rfl⟩)
    · refine ⟨q, e, ?_, rfl⟩
      by_cases hq : q = p
      · subst hq
        have hk : (c', g) ≠ (c, gen) := by
          intro hk
          rw [hk, hnone] at he
          simp at he
        rw [update_self, hs, lookup_insert_ne hk]
        exact he
      · rw [update_of_ne hq]
        exact he
    · exact ⟨p, .live d, by rw [update_self, hs, lookup_insert], rfl⟩

end Remembers

variable {g : Generation} {d : List UInt8} {c' : ChunkID} {s : SegmentStore} {log : List Event}

/-- Places that do not exist remember nothing. -/
theorem remembers_has (h : Remembers v.stores c g d) :
    ∃ p, v.Has p ∧ g ∈ (v.stores p).generations c := by
  obtain ⟨p, e, he, -⟩ := h
  refine ⟨p, ?_, mem_generations.mpr (by rw [he]; rfl)⟩
  by_contra hnot
  have hempty : v.stores p = .empty := by
    have hlen : (v.streams p.1).length ≤ p.2 := Nat.le_of_not_lt hnot
    simp only [stores, backend, List.getD_eq_getElem?_getD, List.getElem?_eq_none hlen]
    rfl
  rw [hempty] at he
  simp [SegmentStore.empty] at he

/-- The tombstone of an outgrown extent does not matter. -/
theorem remembers_storesAfterWrite : Remembers (v.storesAfterWrite env c gen data s) c' g d ↔
    Remembers (Function.update v.stores (v.route c gen data).place s) c' g d := by
  cases hgrown : v.outgrown c data with
  | none => rw [storesAfterWrite_fits env hgrown]
  | some loc =>
    obtain ⟨-, hplace, hroute⟩ := outgrown_place hgrown gen
    have hsame : Function.update v.stores (v.route c gen data).place s loc.place =
        v.stores loc.place := update_of_ne (by rw [hplace, hroute]; simp) _ _
    rw [storesAfterWrite_outgrown env hgrown, ← hsame]
    exact remembers_update (tombstone_keptBy _ _ _).1 (tombstone_keptBy _ _ _).2

theorem Remembers.writeGen (h : Remembers v.stores c' g d) (env : Env) (hlocated : v.Located)
    (c : ChunkID) (gen : Generation) (data : List UInt8) :
    Remembers (writeGen env v c gen data).2.stores c' g d := by
  rcases writeGen_cases env hlocated c gen data with
    ⟨e, v', hcall, hun⟩ | ⟨s, v', hcall, hwrite, hleaves⟩
  · rw [hcall]
    show Remembers v'.stores c' g d
    rw [hun.stores_eq]
    exact h
  · rw [hcall]
    show Remembers v'.stores c' g d
    rw [hleaves.stores_eq]
    exact remembers_storesAfterWrite.mpr (h.update (write_keptBy hwrite))

theorem Remembers.delete (h : Remembers v.stores c' g d) (hlocated : v.Located) (c : ChunkID) :
    Remembers (V2Store.delete v c).2.stores c' g d := by
  rcases delete_cases hlocated c with ⟨e, v', hcall, hun⟩ | ⟨s, v', hcall, hdelete, hleaves⟩
  · rw [hcall]
    show Remembers v'.stores c' g d
    rw [hun.stores_eq]
    exact h
  · rw [hcall]
    show Remembers v'.stores c' g d
    rw [hleaves.stores_eq]
    exact h.update (delete_keptBy hdelete).1

/-! ### The invariant -/

/-- **The invariant.**  The node's memory explains the log, and its locations are the latest. -/
structure FencedBy (v : V2Store) (log : List Event) : Prop where
  located : v.Located
  opened : ∀ p, (v.stores p).closed = false
  known : ∀ c loc, v.locOf.lookup c = some loc →
    (v.stores loc.place).isLive (c, loc.gen) = true ∧
      ∀ g d, Remembers v.stores c g d → g ≤ loc.gen
  unknown : ∀ c, v.locOf.lookup c = none → (v.stores (false, 0)).isLive (c, 1) = false
  unique : ∀ c g d d', Remembers v.stores c g d → Remembers v.stores c g d' → d = d'
  acked : ∀ c g d, .acked c g d ∈ log → Remembers v.stores c g d
  deleted : ∀ c g, .deleted c (some g) ∈ log →
    (∃ d, Remembers v.stores c g d) ∧ ∀ loc, v.locOf.lookup c = some loc → g < loc.gen

theorem FencedBy.congr (h : v.FencedBy log) (hstores : v'.stores = v.stores)
    (hlocOf : ∀ c, v'.locOf.lookup c = v.locOf.lookup c) (hhas : ∀ p, v.Has p → v'.Has p) :
    v'.FencedBy log := by
  obtain ⟨hlocated, hopened, hknown, hunknown, hunique, hacked, hdeleted⟩ := h
  refine ⟨fun c loc hloc => hhas _ (hlocated c loc (hlocOf c ▸ hloc)), ?_, ?_, ?_, ?_, ?_, ?_⟩
  all_goals
    simp only [hstores, hlocOf]
    assumption

theorem FencedBy.unchanged (h : v.FencedBy log) (hun : Unchanged v v') : v'.FencedBy log :=
  h.congr hun.stores_eq (fun c => by rw [hun.locOf_eq]) fun p hp => (hun.has p).mpr hp

/-! ### Writes -/

section

variable (v : V2Store) (c : ChunkID) (gen : Generation)

/-- Every store of the node knows the chunk at lower generations only. -/
def FreshGen : Prop :=
  ∀ p ∈ v.places, ∀ g ∈ (v.stores p).generations c, g < gen

instance : Decidable (v.FreshGen c gen) :=
  have : ∀ p, Decidable (∀ g ∈ (v.stores p).generations c, g < gen) :=
    fun _ => List.decidableBAll _ _
  List.decidableBAll _ _

/--
A write that fencing across the stores would let pass, or that the segment store
refuses: its generation is above all the node knows of the chunk, or the chunk is
already there with this payload, or another payload is.
-/
def FencedWrite (data : List UInt8) : Prop :=
  v.FreshGen c gen ∨
    (v.locOf.lookup c = some (v.route c gen data) ∧
      (v.stores (v.route c gen data).place).extents.lookup (c, gen) = some (.live data)) ∨
    ((v.stores (v.route c gen data).place).extents.lookup (c, gen)).any
      (fun e => e.checksum != crc32c data) = true
  deriving Decidable

end

theorem FreshGen.lt (h : v.FreshGen c gen) (hg : Remembers v.stores c g d) : g < gen := by
  obtain ⟨p, hp, hmem⟩ := remembers_has hg
  exact h p (mem_places.mpr hp) g hmem

theorem FreshGen.lookup_eq_none (h : v.FreshGen c gen) (p : Place) :
    (v.stores p).extents.lookup (c, gen) = none := by
  rw [eq_none_iff_forall_ne_some]
  intro e he
  exact absurd (h.lt ⟨p, e, he, rfl⟩) (UInt64.lt_irrefl _)

/-- What the node remembers after a fresh write. -/
theorem FreshGen.remembers (h : v.FreshGen c gen)
    (hwrite : (v.stores (v.route c gen data).place).write (c, gen) data = .ok s) :
    Remembers (v.storesAfterWrite env c gen data s) c' g d ↔
      Remembers v.stores c' g d ∨ (c' = c ∧ g = gen ∧ d = data) := by
  have hnone := h.lookup_eq_none (v.route c gen data).place
  have hinsert : s.extents =
      (v.stores (v.route c gen data).place).extents.insert (c, gen) (.live data) := by
    obtain ⟨-, -, ⟨-, e, he, -⟩ | ⟨-, heq⟩⟩ := write_cases hwrite
    · rw [hnone] at he
      simp at he
    · exact heq
  rw [remembers_storesAfterWrite]
  exact remembers_insert hnone hinsert

section Writes

variable (hwrite : (v.stores (v.route c gen data).place).write (c, gen) data = .ok s)
  (hleaves : Leaves v v' (v.storesAfterWrite env c gen data s)
    (v.locOf.insert c (v.route c gen data)))
include hwrite hleaves

theorem FencedBy.writeFresh (h : v.FencedBy log) (hfresh : v.FreshGen c gen) :
    v'.FencedBy (.acked c gen data :: log) := by
  have hrem : ∀ {c' g d}, Remembers v'.stores c' g d ↔
      Remembers v.stores c' g d ∨ (c' = c ∧ g = gen ∧ d = data) := by
    intro c' g d
    rw [hleaves.stores_eq]
    exact hfresh.remembers hwrite
  have hlocOf : ∀ c', v'.locOf.lookup c' =
      if c' = c then some (v.route c gen data) else v.locOf.lookup c' := by
    intro c'
    rw [hleaves.locOf_eq]
    split_ifs with hc
    · rw [hc, lookup_insert]
    · exact lookup_insert_ne hc
  have htouches := touches_write hwrite hleaves
  refine ⟨?_, htouches.opened h.opened, ?_, ?_, ?_, ?_, ?_⟩
  · intro c' loc hloc
    rw [hlocOf] at hloc
    rw [hleaves.has]
    split_ifs at hloc with hc
    · exact some.inj hloc ▸ has_route h.located c gen data
    · exact h.located c' loc hloc
  · intro c' loc hloc
    rw [hlocOf] at hloc
    split_ifs at hloc with hc
    · subst hc
      cases hloc
      refine ⟨?_, fun g d hg => ?_⟩
      · rw [hleaves.stores_eq, storesAfterWrite_route, gen_route]
        refine (live_of_write hwrite fun e he => ?_).isLive
        rw [hfresh.lookup_eq_none] at he
        simp at he
      · rw [gen_route]
        rcases hrem.mp hg with hold | ⟨-, rfl, -⟩
        · exact UInt64.le_of_lt (hfresh.lt hold)
        · exact UInt64.le_refl _
    · obtain ⟨hl, hmax⟩ := h.known c' loc hloc
      refine ⟨(htouches.isLive hc _ _).trans hl, fun g d hg => ?_⟩
      rcases hrem.mp hg with hold | ⟨rfl, -, -⟩
      · exact hmax g d hold
      · exact absurd rfl hc
  · intro c' hloc
    rw [hlocOf] at hloc
    split_ifs at hloc with hc
    exact (htouches.isLive hc _ _).trans (h.unknown c' hloc)
  · intro c' g d d' hd hd'
    rcases hrem.mp hd with hold | ⟨rfl, rfl, rfl⟩ <;> rcases hrem.mp hd' with hold' | ⟨hc, hg, hd'⟩
    · exact h.unique c' g d d' hold hold'
    · rw [hc, hg] at hold
      exact absurd (hfresh.lt hold) (UInt64.lt_irrefl _)
    · exact absurd (hfresh.lt hold') (UInt64.lt_irrefl _)
    · exact hd'.symm
  · intro c' g d hmem
    rcases List.mem_cons.mp hmem with heq | hmem
    · obtain ⟨rfl, rfl, rfl⟩ := Event.acked.inj heq
      exact hrem.mpr (.inr ⟨rfl, rfl, rfl⟩)
    · exact hrem.mpr (.inl (h.acked c' g d hmem))
  · intro c' g hmem
    obtain ⟨⟨d, hd⟩, hlt⟩ := h.deleted c' g (by simpa using hmem)
    refine ⟨⟨d, hrem.mpr (.inl hd)⟩, fun loc hloc => ?_⟩
    rw [hlocOf] at hloc
    split_ifs at hloc with hc
    · subst hc
      cases hloc
      rw [gen_route]
      exact hfresh.lt hd
    · exact hlt loc hloc

/-- A retry finds its own payload and changes nothing. -/
theorem FencedBy.writeAgain (h : v.FencedBy log)
    (hloc : v.locOf.lookup c = some (v.route c gen data))
    (hlive : (v.stores (v.route c gen data).place).extents.lookup (c, gen) = some (.live data)) :
    v'.FencedBy (.acked c gen data :: log) := by
  have hsame : s = v.stores (v.route c gen data).place := by
    obtain ⟨-, -, ⟨heq, -⟩ | ⟨hnone, -⟩⟩ := write_cases hwrite
    · exact heq
    · rw [hlive] at hnone
      simp at hnone
  -- The chunk is where it is written, so it does not grow out of its stream.
  have hfits : v.outgrown c data = none := by
    rw [eq_none_iff_forall_ne_some]
    intro loc hgrown
    obtain ⟨hloc', hplace, hroute⟩ := outgrown_place hgrown gen
    rw [hloc, some.injEq] at hloc'
    rw [hloc', hplace] at hroute
    simp at hroute
  have hstores : v'.stores = v.stores := by
    rw [hleaves.stores_eq, storesAfterWrite_fits env hfits, hsame, update_eq_self]
  have hkeep : v'.FencedBy log := by
    refine h.congr hstores (fun c' => ?_) fun p hp => (hleaves.has p).mpr hp
    rw [hleaves.locOf_eq]
    by_cases hc : c' = c
    · rw [hc, lookup_insert, hloc]
    · exact lookup_insert_ne hc
  refine { hkeep with acked := fun c' g d hmem => ?_, deleted := fun c' g hmem => ?_ }
  · rcases List.mem_cons.mp hmem with heq | hmem
    · obtain ⟨rfl, rfl, rfl⟩ := Event.acked.inj heq
      rw [hstores]
      exact ⟨_, _, hlive, rfl⟩
    · exact hkeep.acked c' g d hmem
  · exact hkeep.deleted c' g (by simpa using hmem)

end Writes

theorem FencedBy.writeGen (h : v.FencedBy log) (env : Env) (hfenced : v.FencedWrite c gen data) :
    After (writeGen env v c gen data) (FencedBy · (.acked c gen data :: log)) (FencedBy · log) := by
  rcases writeGen_cases env h.located c gen data with
    ⟨e, v', hcall, hun⟩ | ⟨s, v', hcall, hwrite, hleaves⟩
  · rw [hcall]
    exact h.unchanged hun
  rw [hcall]
  rcases hfenced with hfresh | ⟨hloc, hlive⟩ | hrefused
  · exact h.writeFresh hwrite hleaves hfresh
  · exact h.writeAgain hwrite hleaves hloc hlive
  obtain ⟨e, he, hne⟩ := (any_eq_true _ _).mp hrefused
  obtain ⟨-, -, ⟨-, e', he', hsum⟩ | ⟨hnone, -⟩⟩ := write_cases hwrite
  · rw [he, some.injEq] at he'
    rw [he', hsum] at hne
    simp at hne
  · rw [he] at hnone
    simp at hnone

/-! ### Deletes -/

theorem FencedBy.delete (h : v.FencedBy log) (hclear : v.ClearDelete c) : After (V2Store.delete v c)
      (FencedBy · (.deleted c ((v.currentLoc c).map ChunkLoc.gen) :: log)) (FencedBy · log) := by
  rcases delete_cases h.located c with ⟨e, v', hcall, hun⟩ | ⟨s, v', hcall, hdelete, hleaves⟩
  · rw [hcall]
    exact h.unchanged hun
  rw [hcall]
  obtain ⟨hkept, hkept'⟩ := delete_keptBy hdelete
  have hrem : ∀ {c' g d}, Remembers v'.stores c' g d ↔ Remembers v.stores c' g d := by
    intro c' g d
    rw [hleaves.stores_eq]
    exact remembers_update hkept hkept'
  have hlocOf : ∀ c' loc, v'.locOf.lookup c' = some loc →
      c' ≠ c ∧ v.locOf.lookup c' = some loc := by
    intro c' loc hloc
    rw [hleaves.locOf_eq] at hloc
    by_cases hc : c' = c
    · rw [hc, lookup_erase] at hloc
      simp at hloc
    · exact ⟨hc, (lookup_erase_ne hc).symm.trans hloc⟩
  have htouches := touches_delete hdelete hleaves
  refine ⟨?_, htouches.opened h.opened, ?_, ?_, ?_, ?_, ?_⟩
  · intro c' loc hloc
    rw [hleaves.has]
    exact h.located c' loc (hlocOf c' loc hloc).2
  · intro c' loc hloc
    obtain ⟨hc, hloc⟩ := hlocOf c' loc hloc
    obtain ⟨hl, hmax⟩ := h.known c' loc hloc
    exact ⟨(htouches.isLive hc _ _).trans hl, fun g d hg => hmax g d (hrem.mp hg)⟩
  · intro c' hloc
    by_cases hc : c' = c
    · rw [hc, hleaves.stores_eq]
      exact hclear.isLive hdelete
    · rw [hleaves.locOf_eq, lookup_erase_ne hc] at hloc
      exact (htouches.isLive hc _ _).trans (h.unknown c' hloc)
  · exact fun c' g d d' hd hd' => h.unique c' g d d' (hrem.mp hd) (hrem.mp hd')
  · intro c' g d hmem
    exact hrem.mpr (h.acked c' g d (by simpa using hmem))
  intro c' g hmem
  rcases List.mem_cons.mp hmem with heq | hmem
  · obtain ⟨rfl, hgen⟩ := Event.deleted.inj heq
    obtain ⟨loc, hloc, rfl⟩ := map_eq_some_iff.mp hgen.symm
    obtain ⟨d, hd⟩ := isLive_iff.mp (h.known c' loc hloc).1
    exact ⟨⟨d, hrem.mpr ⟨_, _, hd, rfl⟩⟩, fun loc' hloc' => absurd rfl (hlocOf c' loc' hloc').1⟩
  · obtain ⟨⟨d, hd⟩, hlt⟩ := h.deleted c' g hmem
    exact ⟨⟨d, hrem.mpr hd⟩, fun loc hloc => hlt loc (hlocOf c' loc hloc).2⟩

/-! ### What is served -/

theorem FencedBy.served_eq (h : v.FencedBy log) (c : ChunkID) :
    v.served c = (v.locOf.lookup c).map ChunkLoc.gen := by
  unfold served
  rw [read_eq h.located]
  cases hloc : v.locOf.lookup c with
  | none =>
    have hread := read_not_live (h.opened (false, 0)) (h.unknown c hloc)
    rw [loc_of_unknown hloc]
    simp only [ChunkLoc.place, hread]
    rfl
  | some loc =>
    obtain ⟨d, hd⟩ := isLive_iff.mp (h.known c loc hloc).1
    rw [loc_of_lookup h.located hloc, read_live (h.opened _) hd]
    rfl

end V2Store

/-! ### Runs -/

namespace Session

/-- **The condition on a call**, in the state it finds; runs have no other calls than these. -/
def KeepsGenerations (s : Session) : Env × Call → Prop
  | (_, .writeGen c gen data) => s.store.FencedWrite c gen data
  | (_, .delete c) => s.store.ClearDelete c
  | _ => False

instance (s : Session) (a : Env × Call) : Decidable (s.KeepsGenerations a) :=
  match a with
  | (_, .writeGen c gen data) => inferInstanceAs (Decidable (s.store.FencedWrite c gen data))
  | (_, .delete c) => inferInstanceAs (Decidable (s.store.ClearDelete c))
  | (_, .write _ _) | (_, .rebalanceOne _ _ _) | (_, .migrateDisk _) | (_, .removeDisk _) =>
    .isFalse id

variable {s : Session}

theorem fencedBy_call (h : s.store.FencedBy s.log) (env : Env) (a : Call)
    (hkeeps : s.KeepsGenerations (env, a)) : (s.call env a).store.FencedBy (s.call env a).log := by
  cases a with
  | writeGen c gen data => exact after_note (h.writeGen env hkeeps)
  | delete c => exact after_note (h.delete hkeeps)
  | _ => exact hkeeps.elim

theorem fencedBy_new (dirs : List String) (h : 0 < dirs.length) (small : Bool) :
    (new dirs h small).store.FencedBy [] := by
  have hrem : ∀ c g d, ¬ V2Store.Remembers (new dirs h small).store.stores c g d := by
    rintro c g d ⟨p, e, he, -⟩
    rw [stores_new] at he
    simp [SegmentStore.empty] at he
  refine ⟨by simp [V2Store.Located, new], fun p => ?_, by simp [new], fun c _ => ?_,
    fun c g d d' hd => absurd hd (hrem c g d), by simp, by simp⟩
  · rw [stores_new]
    rfl
  · rw [stores_new]
    rfl

/-- While a chunk is served, no call lowers its generation. -/
theorem served_le (h : s.store.FencedBy s.log) (env : Env) (a : Call)
    (hkeeps : s.KeepsGenerations (env, a)) {c : ChunkID} {g g' : Generation}
    (hg : s.store.served c = some g) (hg' : (s.call env a).store.served c = some g') : g ≤ g' := by
  have hafter := fencedBy_call h env a hkeeps
  rw [h.served_eq] at hg
  rw [hafter.served_eq] at hg'
  obtain ⟨loc, hloc, rfl⟩ := map_eq_some_iff.mp hg
  obtain ⟨loc', hloc', rfl⟩ := map_eq_some_iff.mp hg'
  -- What is served is remembered, before the call and after it.
  obtain ⟨d, hd⟩ := isLive_iff.mp (h.known c loc hloc).1
  have hrem : V2Store.Remembers s.store.stores c loc.gen d := ⟨_, _, hd, rfl⟩
  refine (hafter.known c loc' hloc').2 loc.gen d ?_
  cases a with
  | writeGen c' gen data =>
    rw [call, store_note]
    exact hrem.writeGen env h.located c' gen data
  | delete c' =>
    rw [call, store_note]
    exact hrem.delete h.located c'
  | _ => exact hkeeps.elim

/--
**Generation fencing.**  In every state that generation writes and deletes reach which
meet the condition: no further such call lowers the generation a chunk is served at
while it exists, two payloads acknowledged for one generation are the same, and a
chunk that was deleted is served only at a higher generation than the deleted one.
-/
theorem generations_fenced (dirs : List String) (h : 0 < dirs.length) (small : Bool)
    (calls : List (Env × Call))
    (hmeets : Guarded.Meets step KeepsGenerations calls (new dirs h small))
    (s : Session) (hrun : Guarded.run step calls (new dirs h small) = some s) (c : ChunkID) :
    (∀ env a, s.KeepsGenerations (env, a) → ∀ g g', s.store.served c = some g →
        (s.call env a).store.served c = some g' → g ≤ g') ∧
      (∀ g d d', .acked c g d ∈ s.log → .acked c g d' ∈ s.log → d = d') ∧
      ∀ g, .deleted c (some g) ∈ s.log → ∀ g', s.store.served c = some g' → g < g' := by
  have hfenced := run_invariant (P := fun s => s.store.FencedBy s.log)
    (fun _ env a hinv => fencedBy_call hinv env a) (fencedBy_new dirs h small) hmeets hrun
  refine ⟨fun env a hkeeps g g' hg hg' => served_le hfenced env a hkeeps hg hg',
    fun g d d' hd hd' => ?_, fun g hdeleted g' hg' => ?_⟩
  · exact hfenced.unique c g d d' (hfenced.acked c g d hd) (hfenced.acked c g d' hd')
  · rw [hfenced.served_eq] at hg'
    obtain ⟨loc, hloc, rfl⟩ := map_eq_some_iff.mp hg'
    exact (hfenced.deleted c g hdeleted).2 loc hloc

/-- A write, its retry, a delete, a stale retry that is refused, and a later generation. -/
theorem later_generation_after_delete :
    ∃ s, Guarded.run step [(calm, .writeGen 7 3 [5]), (calm, .writeGen 7 3 [5]), (calm, .delete 7),
        (calm, .writeGen 7 3 [6]), (calm, .writeGen 7 4 [6])] (new ["a"] (by decide) true) = some s ∧
      s.store.served 7 = some 4 ∧
      (∀ g d d', .acked 7 g d ∈ s.log → .acked 7 g d' ∈ s.log → d = d') ∧
      ∀ g, .deleted 7 (some g) ∈ s.log → g < 4 := by
  have hmeets : Guarded.Meets step KeepsGenerations [(calm, .writeGen 7 3 [5]),
      (calm, .writeGen 7 3 [5]), (calm, .delete 7), (calm, .writeGen 7 3 [6]),
      (calm, .writeGen 7 4 [6])] (new ["a"] (by decide) true) := by decide +kernel
  have hend : (Guarded.run step [(calm, .writeGen 7 3 [5]), (calm, .writeGen 7 3 [5]),
      (calm, .delete 7), (calm, .writeGen 7 3 [6]), (calm, .writeGen 7 4 [6])]
      (new ["a"] (by decide) true)).map (fun s => s.store.served 7) = some (some 4) := by
    decide +kernel
  obtain ⟨s, hs, hserved⟩ := map_eq_some_iff.mp hend
  obtain ⟨-, hunique, hdeleted⟩ := generations_fenced _ _ _ _ hmeets s hs 7
  exact ⟨s, hs, hserved, hunique, fun g hg => hdeleted g hg 4 hserved⟩

/-- A delayed write of generation 3 is acknowledged after generation 5 and served from then on. -/
theorem delayed_write_served :
    (Guarded.run step [(calm, .writeGen 7 5 [5])] (new ["a"] (by decide) false)).map
        (fun s => s.store.served 7) = some (some 5) ∧
      (Guarded.run step [(calm, .writeGen 7 5 [5]), (calm, .writeGen 7 3 [6])]
        (new ["a"] (by decide) false)).map (fun s => (s.store.served 7, s.store.read 7)) =
        some (some 3, .ok ([6], crc32c [6])) := by
  decide +kernel

end Session

end Nufs.Datanode
