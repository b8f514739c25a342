/-
The generator of chunk IDs.

An ID is a time in milliseconds, a node and a sequence number, from the high bits down.
The generator's time does not follow the clock back, and it can be raised above an ID
that is in use already.
-/
import Mathlib.Data.Nat.Notation

namespace Nufs.ChunkIds

/-- `ChunkIDGenerator`; ten bits of the node are kept. -/
structure ChunkIDGenerator where
  nodeID : Fin 0x400
  sequence : Nat
  lastTS : Int

namespace ChunkIDGenerator

/-- `NewChunkIDGenerator`. -/
def new (nodeID : UInt64) : ChunkIDGenerator := ⟨Fin.ofNat _ nodeID.toNat, 0, 0⟩

section

variable (g : ChunkIDGenerator)

/-- The generator after the `switch` of `Next`, at a reading of the clock. -/
def advance (ts : Int) : ChunkIDGenerator :=
  if ts < g.lastTS then
    if g.sequence < 0x1FFF then { g with sequence := g.sequence + 1 }
    else { g with lastTS := g.lastTS + 1, sequence := 0 }
  else if ts = g.lastTS then { g with sequence := (g.sequence + 1) % 0x10000000000000000 }
  else { g with sequence := 0, lastTS := ts }

/-- 41 bits of time, 10 of the node and 13 of the sequence. -/
def chunkID : Nat :=
  ((g.lastTS % 0x20000000000).toNat <<< 23 ||| g.nodeID.val <<< 13) ||| (g.sequence &&& 0x1FFF)

/-- `Next`. -/
def next (ts : Int) : Nat × ChunkIDGenerator :=
  ((g.advance ts).chunkID, g.advance ts)

/-- `BumpAbove`. -/
def bumpAbove (floor : UInt64) : ChunkIDGenerator :=
  let region : Int := floor.toNat >>> 23
  if g.lastTS < region + 1 then { g with lastTS := region + 1, sequence := 0 } else g

end

end ChunkIDGenerator

/-- A call of the generator; `Next` reads the clock. -/
inductive Call
  | next (ts : Int)
  | bumpAbove (floor : UInt64)

/-- A generator, with the IDs it has returned and the floors it was given. -/
structure History where
  gen : ChunkIDGenerator
  seen : List Nat

def step (h : History) : Call → Option History
  | .next ts => some ⟨(h.gen.next ts).2, (h.gen.next ts).1 :: h.seen⟩
  | .bumpAbove floor => some ⟨h.gen.bumpAbove floor, floor.toNat :: h.seen⟩

end Nufs.ChunkIds
