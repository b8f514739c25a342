/-
The listing agrees with the lookup.

An entry of the overlay comes first and an entry of the index with the same generation does
not replace it, as in a lookup.  Of the generations of an extent the highest one stays, and
the index hands that one over because its keys are sorted.
-/
import Mathlib.Data.List.MinMax
import Nufs.Proofs.Storage.Compaction
import Nufs.Storage.Listing

namespace Nufs.Storage

open List AList

/-- The order of the index: by extent, then by generation. -/
def LiveExtent.Before (a b : LiveExtent) : Prop :=
  a.extentID < b.extentID ∨ a.extentID = b.extentID ∧ a.generation < b.generation

/-- An entry of the same extent with at least the generation. -/
def LiveExtent.CoveredBy (x y : LiveExtent) : Prop :=
  y.extentID = x.extentID ∧ x.generation ≤ y.generation

variable {x cur : LiveExtent} {es : List LiveExtent}

/-! ### The index -/

theorem mem_of_mem_iterateFrom (h : x ∈ Index.iterateFrom cur es) : x ∈ cur :: es := by
  induction es generalizing cur with
  | nil => exact h
  | cons e es ih =>
    rw [Index.iterateFrom] at h
    split_ifs at h
    · exact mem_cons_of_mem _ (ih h)
    · rcases mem_cons.mp h with rfl | h
      · exact mem_cons_self
      · exact mem_cons_of_mem _ (ih h)

/-- Of every extent the last entry is handed over, which has the highest generation. -/
theorem iterateFrom_covers (hsorted : (cur :: es).Pairwise LiveExtent.Before)
    (hx : x ∈ cur :: es) : ∃ y ∈ Index.iterateFrom cur es, x.CoveredBy y := by
  induction es generalizing x cur with
  | nil => exact ⟨x, hx, rfl, UInt64.le_refl _⟩
  | cons e es ih =>
    obtain ⟨hcur, hrest⟩ := pairwise_cons.mp hsorted
    rw [Index.iterateFrom]
    split_ifs with hid
    · rcases mem_cons.mp hx with rfl | hx
      · obtain ⟨y, hy, hyid, hle⟩ := ih hrest mem_cons_self
        rcases hcur e mem_cons_self with hlt | ⟨-, hlt⟩
        · exact absurd hlt (hid ▸ UInt64.lt_irrefl _)
        · exact ⟨y, hy, hyid.trans hid, UInt64.le_trans (UInt64.le_of_lt hlt) hle⟩
      · exact ih hrest hx
    · rcases mem_cons.mp hx with rfl | hx
      · exact ⟨x, mem_cons_self, rfl, UInt64.le_refl _⟩
      · obtain ⟨y, hy, hcovered⟩ := ih hrest hx
        exact ⟨y, mem_cons_of_mem _ hy, hcovered⟩

/-! ### The map -/

/-- The map keeps, of the entries of an extent, the first one with the highest generation. -/
theorem lookup_merge (l : List LiveExtent) (id : ExtentID) : (l.foldl Merged.update ∅).lookup id =
      (l.filter (·.extentID = id)).argmax (·.generation.toNat) := by
  induction l using List.reverseRecOn with
  | nil => rfl
  | append_singleton l e ih =>
    rw [foldl_append, filter_append]
    show (Merged.update (l.foldl Merged.update ∅) e).lookup id = _
    generalize l.foldl Merged.update ∅ = m at ih ⊢
    unfold Merged.update
    by_cases hid : e.extentID = id
    · subst hid
      rw [filter_cons_of_pos (by exact decide_eq_true rfl), filter_nil, argmax_concat, ← ih]
      cases hcur : m.lookup e.extentID with
      | none => exact lookup_insert _
      | some cur =>
        simp only [UInt64.lt_iff_toNat_lt]
        split_ifs
        · exact lookup_insert _
        · exact hcur
    · rw [filter_cons_of_neg (by simpa using hid), filter_nil, append_nil, ← ih]
      split
      · exact lookup_insert_ne (Ne.symm hid)
      · split_ifs
        · exact lookup_insert_ne (Ne.symm hid)
        · rfl

variable {s : Store} {sorted : List LiveExtent}

theorem mem_of_mem_iterate (h : x ∈ Index.iterate sorted) : x ∈ sorted := by
  cases sorted with
  | nil => exact h
  | cons => exact mem_of_mem_iterateFrom h

theorem iterate_covers (hsorted : sorted.Pairwise LiveExtent.Before) (hx : x ∈ sorted) :
    ∃ y ∈ Index.iterate sorted, x.CoveredBy y := by
  cases sorted with
  | nil => exact absurd hx not_mem_nil
  | cons => exact iterateFrom_covers hsorted hx

/-- The entries of a map, in any order. -/
theorem mem_ofEntry {t : Index} {l : List LiveExtent}
    (hl : l.Perm (t.entries.map LiveExtent.ofEntry)) :
    x ∈ l ↔ t.lookup (x.extentID, x.generation) = some x.value := by
  rw [hl.mem_iff, ← Option.mem_def, mem_lookup_iff, mem_map]
  constructor
  · rintro ⟨e, he, rfl⟩
    exact he
  · intro he
    exact ⟨_, he, rfl⟩

/-! ### The listing -/

section Listing

variable {snapshot : List LiveExtent}
  (hsnapshot : snapshot.Perm
    ((s.overlay.entries ∪ s.overlay.draining).entries.map LiveExtent.ofEntry))
  (hindex : sorted.Perm (s.index.entries.map LiveExtent.ofEntry))

include hsnapshot

theorem mem_snapshot : x ∈ snapshot ↔ s.overlay.get (x.extentID, x.generation) = some x.value := by
  rw [mem_ofEntry hsnapshot, lookup_union, Overlay.get]

include hindex

/-- What the map has of an extent is what a lookup finds. -/
theorem merged_located (id : ExtentID) (e : LiveExtent)
    (h : ((snapshot ++ Index.iterate sorted).foldl Merged.update ∅).lookup id = some e) :
    e.extentID = id ∧ s.lookup (e.extentID, e.generation) = some e.value := by
  rw [lookup_merge, filter_append] at h
  have hmem := argmax_mem h
  have hid : e.extentID = id := by
    rw [← filter_append] at hmem
    exact of_decide_eq_true (mem_filter.mp hmem).2
  refine ⟨hid, ?_⟩
  rw [Store.lookup]
  cases hget : s.overlay.get (e.extentID, e.generation) with
  | none =>
    rw [Option.none_or]
    rcases mem_append.mp hmem with hmem | hmem
    · rw [(mem_snapshot hsnapshot).mp (mem_filter.mp hmem).1] at hget
      cases hget
    · exact (mem_ofEntry hindex).mp (mem_of_mem_iterate (mem_filter.mp hmem).1)
  | some v =>
    -- The overlay's entry comes first, so that it is the one that was kept.
    have hover : ⟨e.extentID, e.generation, v⟩ ∈ snapshot.filter (·.extentID = id) :=
      mem_filter.mpr ⟨(mem_snapshot hsnapshot).mpr hget, decide_eq_true hid⟩
    have hfirst := index_of_argmax h (mem_append_left _ hover) (Nat.le_refl _)
    rw [idxOf_append_of_mem hover] at hfirst
    have hlt := idxOf_lt_length_of_mem hover
    by_cases hin : e ∈ snapshot.filter (·.extentID = id)
    · rw [(mem_snapshot hsnapshot).mp (mem_filter.mp hin).1] at hget
      rw [Option.some_or, hget]
    · rw [idxOf_append_of_notMem hin] at hfirst
      omega

/-- What a lookup finds is covered by an element of the map. -/
theorem merged_covers (hsorted : sorted.Pairwise LiveExtent.Before)
    (hx : s.lookup (x.extentID, x.generation) = some x.value) :
    ∃ e, ((snapshot ++ Index.iterate sorted).foldl Merged.update ∅).lookup x.extentID = some e ∧
      x.generation ≤ e.generation := by
  obtain ⟨y, hy, hyid, hyle⟩ : ∃ y ∈ snapshot ++ Index.iterate sorted, x.CoveredBy y := by
    rcases Option.or_eq_some_iff.mp hx with hget | ⟨-, hget⟩
    · exact ⟨x, mem_append_left _ ((mem_snapshot hsnapshot).mpr hget), rfl, UInt64.le_refl _⟩
    · obtain ⟨y, hy, hcovered⟩ := iterate_covers hsorted ((mem_ofEntry hindex).mpr hget)
      exact ⟨y, mem_append_right _ hy, hcovered⟩
  have hmem : y ∈ (snapshot ++ Index.iterate sorted).filter (·.extentID = x.extentID) :=
    mem_filter.mpr ⟨hy, decide_eq_true hyid⟩
  rw [lookup_merge]
  cases hmax : ((snapshot ++ Index.iterate sorted).filter (·.extentID = x.extentID)).argmax
      (·.generation.toNat) with
  | none =>
    rw [argmax_eq_none.mp hmax] at hmem
    exact absurd hmem not_mem_nil
  | some e =>
    have hle := le_of_mem_argmax (f := fun e : LiveExtent => e.generation.toNat) hmem hmax
    exact ⟨e, rfl, UInt64.le_trans hyle (UInt64.le_iff_toNat_le.mpr hle)⟩

variable (hsorted : sorted.Pairwise LiveExtent.Before)

theorem coalesce_nodup : ((coalesce snapshot sorted).map LiveExtent.extentID).Nodup := by
  have hlocated := merged_located hsnapshot hindex
  unfold coalesce
  generalize (snapshot ++ Index.iterate sorted).foldl Merged.update ∅ = m at hlocated ⊢
  have hkeys : (m.entries.map Sigma.snd).map LiveExtent.extentID = m.keys := by
    rw [map_map]
    refine map_congr_left fun x hx => ?_
    exact (hlocated x.1 x.2 (mem_lookup_iff.mpr hx)).1
  refine (List.Sublist.map _ filter_sublist).nodup ?_
  rw [hkeys]
  exact m.nodupKeys

include hsorted

/-- The loops list what the compaction worker is modelled to be given. -/
theorem mem_coalesce {e : LiveExtent} : e ∈ coalesce snapshot sorted ↔ e ∈ s.listExtents := by
  have hlocated := merged_located hsnapshot hindex
  have hcovers := fun x => merged_covers (x := x) hsnapshot hindex hsorted
  unfold coalesce
  generalize (snapshot ++ Index.iterate sorted).foldl Merged.update ∅ = m at hlocated hcovers ⊢
  have hmem : e ∈ m.entries.map Sigma.snd ↔ m.lookup e.extentID = some e := by
    rw [mem_map]
    constructor
    · rintro ⟨⟨id, e'⟩, he, rfl⟩
      have hid := mem_lookup_iff.mpr he
      rwa [(hlocated id e' hid).1]
    · intro he
      exact ⟨_, mem_lookup_iff.mp he, rfl⟩
  rw [mem_filter, hmem, decide_eq_true_eq, Store.mem_listExtents]
  constructor
  · rintro ⟨he, hstate⟩
    refine ⟨(hlocated _ e he).2, fun g hg => ?_, hstate⟩
    by_contra hsome
    obtain ⟨v, hv⟩ := Option.ne_none_iff_exists'.mp hsome
    obtain ⟨e', he', hle⟩ := hcovers ⟨_, g, v⟩ hv
    obtain rfl := Option.some.inj (he.symm.trans he')
    exact UInt64.not_le.mpr hg hle
  · rintro ⟨hlookup, hnewest, hstate⟩
    obtain ⟨⟨id, gen, v⟩, he, hle⟩ := hcovers e hlookup
    obtain ⟨rfl, hvalue⟩ := hlocated _ _ he
    -- A higher generation is not known, so it is the same one.
    have hgen : gen = e.generation := by
      by_contra hne
      have hnone := hnewest gen (UInt64.lt_of_le_of_ne hle (Ne.symm hne))
      exact absurd (hvalue.symm.trans hnone) nofun
    subst hgen
    obtain rfl := Option.some.inj (hvalue.symm.trans hlookup)
    exact ⟨he, hstate⟩

/--
**The listing.**  Whatever the order of the overlay's map, it has one element for each extent
whose highest generation is not a tombstone, with that generation and the value a lookup finds.
-/
theorem listing_agrees_with_lookup : ((coalesce snapshot sorted).map LiveExtent.extentID).Nodup ∧
      ∀ e, e ∈ coalesce snapshot sorted ↔ s.lookup (e.extentID, e.generation) = some e.value ∧
          s.IsNewest (e.extentID, e.generation) ∧ e.value.state ≠ .tombstoned :=
  ⟨coalesce_nodup hsnapshot hindex,
    fun _ => (mem_coalesce hsnapshot hindex hsorted).trans Store.mem_listExtents⟩

end Listing

/-- Generations in all three places, and an extent with a tombstone on top. -/
def layered : Store :=
  let entry (k : Key) (state : ExtentState) := AList.singleton k (Value.mk 0 0 0 0 state 0)
  { Store.opening 1 0 ∅ (entry (8, 1) .durable ∪ entry (7, 1) .durable) none with
    overlay := ⟨entry (8, 2) .tombstoned, entry (7, 2) .durable⟩ }

theorem layered_listing_agrees :
    layered.lookup (7, 2) = some ⟨0, 0, 0, 0, .durable, 0⟩ ∧ layered.IsNewest (7, 2) := by
  have h := (listing_agrees_with_lookup (.refl _)
    ((reverse_perm layered.index.entries).map LiveExtent.ofEntry)
    (by simp [LiveExtent.Before, LiveExtent.ofEntry, layered, Store.opening])).2
    ⟨7, 2, ⟨0, 0, 0, 0, .durable, 0⟩⟩
  have hlisted := h.mp (by decide)
  exact ⟨hlisted.1, hlisted.2.1⟩

end Nufs.Storage
