/-
Extent locations: the derived index and the overlay in front of it.

The index maps an extent and a generation to where its record lies.  The overlay
holds the locations committed since the last flush and is read first; a flush moves
them through a draining set that stays readable until the index has them.
-/
import Nufs.Storage.Journal
import Mathlib.Data.List.AList

namespace Nufs.Storage

/-- The index key of an extent at a generation. -/
abbrev Key := ExtentID × Generation

/-- `index.Value`: where a record lies and the state of its extent. -/
structure Value where
  segmentID : SegmentID
  offset : Nat
  storedLen : UInt32
  logicalLen : UInt32
  state : ExtentState
  checksum : UInt32
  deriving DecidableEq, Repr

/-- `index.Mutation`: one index entry to be written. -/
structure Mutation where
  key : Key
  value : Value
  deriving DecidableEq, Repr

/-- The derived index. -/
abbrev Index := AList (fun _ : Key => Value)

/-- `Store.applyNow`: one synced Pebble batch. -/
def Index.applyNow (ix : Index) (muts : List Mutation) : Index :=
  muts.foldl (fun ix m => ix.insert m.key m.value) ix

/-- `Overlay`: the unflushed locations and those a flush is handing over. -/
structure Overlay where
  entries : Index
  draining : Index

namespace Overlay

/-- `NewOverlay`. -/
def empty : Overlay := ⟨∅, ∅⟩

section

variable (o : Overlay)

/-- `Overlay.Put`. -/
def put (k : Key) (v : Value) : Overlay :=
  { o with entries := o.entries.insert k v }

/-- `Overlay.Get`: entries first, then what a flush is handing over. -/
def get (k : Key) : Option Value :=
  (o.entries.lookup k).or (o.draining.lookup k)

/-- The mutations `Overlay.Drain` returns. -/
def drained : List Mutation :=
  o.entries.entries.map fun e => ⟨e.1, e.2⟩

/-- `Overlay.Drain`: all entries join the draining set. -/
def drain : Overlay :=
  { entries := ∅, draining := o.entries ∪ o.draining }

/-- `Overlay.DiscardDrained`. -/
def discardDrained : Overlay :=
  { o with draining := ∅ }

/-- `Overlay.RestoreDrained`: entries committed meanwhile win. -/
def restoreDrained : Overlay :=
  { entries := o.entries ∪ o.draining, draining := ∅ }

end

end Overlay

end Nufs.Storage
