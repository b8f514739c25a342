/-
The listing of the extents a store holds.

`ListExtents` goes through the overlay, in the order its map gives, and then through what
`Iterate` hands over of the index, which is sorted by extent and generation.
-/
import Nufs.Storage.Compaction

namespace Nufs.Storage

/-- An entry of the overlay or of the index. -/
def LiveExtent.ofEntry (e : (_ : Key) × Value) : LiveExtent := ⟨e.1.1, e.1.2, e.2⟩

/-- The loop of `Index.Iterate`, with the entry it has kept of the current extent. -/
def Index.iterateFrom (cur : LiveExtent) : List LiveExtent → List LiveExtent
  | [] => [cur]
  | e :: es =>
    if e.extentID = cur.extentID then iterateFrom e es else cur :: iterateFrom e es

/-- `Index.Iterate`: what it calls its function with. -/
def Index.iterate : List LiveExtent → List LiveExtent
  | [] => []
  | e :: es => iterateFrom e es

/-- The `merged` map of `ListExtents`. -/
abbrev Merged := AList fun _ : ExtentID => LiveExtent

/-- The `update` of `ListExtents`: a later entry wins with a higher generation only. -/
def Merged.update (m : Merged) (e : LiveExtent) : Merged :=
  match m.lookup e.extentID with
  | none => m.insert e.extentID e
  | some cur => if cur.generation < e.generation then m.insert e.extentID e else m

/-- `Store.ListExtents`, over the overlay's snapshot and the sorted index. -/
def coalesce (snapshot sorted : List LiveExtent) : List LiveExtent :=
  (((snapshot ++ Index.iterate sorted).foldl Merged.update ∅).entries.map Sigma.snd).filter
    fun e => e.value.state ≠ .tombstoned

end Nufs.Storage
