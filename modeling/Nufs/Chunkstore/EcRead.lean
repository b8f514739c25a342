/-
Erasure-coded chunks: encoding, the read of a window and the read of the whole.

A payload is padded and cut into data shards of one size, and parity shards are added.  A
window is read from the data shards that own its bytes, at places computed from the size
the chunk's row gives; a shard that does not answer is rebuilt from the same place of the
others.  If that fails all shards are fetched and decoded.
-/
import Mathlib.Algebra.Order.Group.Nat

namespace Nufs.Chunkstore

/-- `MaxChunkSize`. -/
def maxChunkSize : Nat := 64 * 1024 * 1024

/-- `reedsolomon.Encoder`: the parity shards of data shards, `Reconstruct`, which may refuse,
and `Verify`. -/
structure ReedSolomon where
  parity : List (List UInt8) → List (List UInt8)
  reconstruct : List (Option (List UInt8)) → Option (List (List UInt8))
  verify : List (List UInt8) → Bool

/-- The size of a shard: `length` bytes over `k` shards, rounded up. -/
def shardSizeOf (length k : Nat) : Nat := (length + k - 1) / k

/-- The data, padded to `k` shards. -/
def padded (k : Nat) (data : List UInt8) : List UInt8 :=
  data ++ List.replicate (shardSizeOf data.length k * k - data.length) 0

/-- The data shards of `ECEncoder.Encode`. -/
def dataShards (k : Nat) (data : List UInt8) : List (List UInt8) :=
  (List.range k).map fun i =>
    ((padded k data).drop (i * shardSizeOf data.length k)).take (shardSizeOf data.length k)

/-- `ECEncoder.Encode`. -/
def encode (rs : ReedSolomon) (k : Nat) (data : List UInt8) : List (List UInt8) :=
  dataShards k data ++ rs.parity (dataShards k data)

/-- `ReadECShard` on a shard: all of it for the length zero, and otherwise a range that starts
inside the shard and is cut off at its end. -/
def readShardRange (shard : List UInt8) (offset length : Nat) : Option (List UInt8) :=
  if length = 0 then some shard
  else if shard.length ≤ offset then none
  else some ((shard.drop offset).take length)

/-- What the datanodes answer, some of which cannot be reached. -/
def served (shards : List (List UInt8)) (reachable : Nat → Bool) (i offset length : Nat) :
    Option (List UInt8) :=
  if reachable i then shards[i]?.bind fun shard => readShardRange shard offset length else none

/-- The part of a window that one data shard owns. -/
structure Window where
  shard : Nat
  start : Nat
  stop : Nat

def windowsOf (k size offset stop : Nat) : List Window :=
  (List.range k).filterMap fun i =>
    if (i + 1) * size ≤ offset ∨ stop ≤ i * size then none
    else some ⟨i, offset - i * size, min (stop - i * size) size⟩

section

variable (rs : ReedSolomon) (k m : Nat) (fetch : Nat → Nat → Nat → Option (List UInt8))

/-- The range of a window from shard `i`, if it comes in full. -/
def fetchExact (i : Nat) (w : Window) : Option (List UInt8) :=
  (fetch i w.start (w.stop - w.start)).filter fun data => data.length = w.stop - w.start

/-- The window of a missing shard, rebuilt from the same range of the others. -/
def rebuildWindow (w : Window) : Option (List UInt8) :=
  let slices := (List.range (k + m)).map fun i => if i = w.shard then none else fetchExact fetch i w
  if (slices.filter Option.isSome).length < k then none
  else do
    let full ← rs.reconstruct slices
    full[w.shard]?.filter fun data => data.length = w.stop - w.start

/-- `readECWindow`; nothing, where it fails. -/
def readECWindow (offset length literalSize : Nat) : Option (List UInt8) :=
  let stop := min (offset + length) literalSize
  if stop ≤ offset then some []
  else
    ((windowsOf k (shardSizeOf literalSize k) offset stop).mapM fun w =>
      (fetchExact fetch w.shard w).or (rebuildWindow rs k m fetch w)).map List.flatten

/-- `ECEncoder.Decode`. -/
def decode (shards : List (Option (List UInt8))) (originalLen : Nat) : Option (List UInt8) :=
  if (shards.filter Option.isSome).length < k then none
  else do
    let full ← rs.reconstruct shards
    let data := (full.take k).flatten
    if rs.verify full = false ∨ data.length < originalLen then none
    else some (data.take originalLen)

/-- The full read of `readECChunk`. -/
def readFull (size offset length : Nat) : Option (List UInt8) := do
  let shards := (List.range (k + m)).map fun i => fetch i 0 0
  let paddedLen := (shards.map fun s => (s.getD []).length).foldl max 0 * k
  let decodeLen := if 0 < size ∧ size < paddedLen then size else paddedLen
  let full ← decode rs k shards decodeLen
  let stop := if 0 < length then min (offset + length) decodeLen else decodeLen
  if decodeLen ≤ offset then some [] else some ((full.take stop).drop offset)

/-- `readECChunk`, on a chunk that names a stripe or not, whose row says `size`. -/
def readECChunk (stripe : Bool) (size offset length : Nat) : Option (List UInt8) :=
  let dataLen := shardSizeOf maxChunkSize k * k
  let window :=
    if stripe = true ∧ 0 < length ∧ offset < dataLen ∧ 0 < size ∧ size ≤ dataLen then
      readECWindow rs k m fetch offset length size
    else none
  window.or (readFull rs k m fetch size offset length)

end

end Nufs.Chunkstore
