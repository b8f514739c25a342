/-
Keeping some of the keys of a finite map.
-/
import Mathlib.Data.Finmap

namespace Finmap

variable {α : Type} {β : α → Type}

theorem nodupKeys_filter {s : Multiset (Sigma β)} (h : s.NodupKeys) (p : Sigma β → Prop)
    [DecidablePred p] : (s.filter p).NodupKeys := by
  rw [← Multiset.nodup_keys] at h ⊢
  exact Multiset.nodup_of_le (Multiset.map_le_map (Multiset.filter_le p s)) h

/-- The entries whose key has a property. -/
def filterKeys (p : α → Prop) [DecidablePred p] (m : Finmap β) : Finmap β :=
  ⟨m.entries.filter fun e => p e.1, nodupKeys_filter m.nodupKeys _⟩

variable [DecidableEq α]

theorem lookup_filterKeys (p : α → Prop) [DecidablePred p] (m : Finmap β) (a : α) :
    (m.filterKeys p).lookup a = if p a then m.lookup a else none := by
  split_ifs with hp
  · refine Option.ext fun b => ?_
    rw [lookup_eq_some_iff, lookup_eq_some_iff, filterKeys, Multiset.mem_filter]
    exact and_iff_left hp
  · rw [lookup_eq_none, mem_def, Multiset.keys, Multiset.mem_map]
    rintro ⟨e, he, rfl⟩
    exact hp (Multiset.mem_filter.mp he).2

end Finmap
