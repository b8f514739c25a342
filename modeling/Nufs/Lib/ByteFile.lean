/-
Files as byte strings, with a durability barrier.

A file is the bytes a reader sees now together with the bytes the last barrier
made durable.  Positional reads and writes act on the first, and `sync` copies the
first to the second.
-/
import Mathlib.Data.List.Basic

namespace ByteFile

/-! ### Positional access to a byte string -/

/-- Exactly `n` bytes at an offset, or nothing if the file ends before them. -/
def readFullAt (f : List UInt8) (n off : Nat) : Option (List UInt8) :=
  if off + n ≤ f.length then some ((f.drop off).take n) else none

/-- Write bytes at an offset; a gap past the end is filled with zeros. -/
def writeAt (f : List UInt8) (off : Nat) (bs : List UInt8) : List UInt8 :=
  f.take off ++ List.replicate (off - f.length) 0 ++ bs ++ f.drop (off + bs.length)

/-- Reading a known stretch gives that stretch. -/
theorem readFullAt_append (pre mid post : List UInt8) :
    readFullAt (pre ++ (mid ++ post)) mid.length pre.length = some mid := by
  simp [readFullAt]

/-- Reading the beginning of a known stretch gives its first bytes. -/
theorem readFullAt_take (pre mid post : List UInt8) {n : Nat} (h : n ≤ mid.length) :
    readFullAt (pre ++ (mid ++ post)) n pre.length = some (mid.take n) := by
  have hlen : (mid.take n).length = n := List.length_take_of_le h
  have hread := readFullAt_append pre (mid.take n) (mid.drop n ++ post)
  rwa [hlen, ← List.append_assoc (mid.take n), List.take_append_drop] at hread

/-- The same at the end of the file. -/
theorem readFullAt_end (pre : List UInt8) {tail : List UInt8} {n : Nat} (h : n ≤ tail.length) :
    readFullAt (pre ++ tail) n pre.length = some (tail.take n) := by
  have hread := readFullAt_take pre tail [] h
  rwa [List.append_nil] at hread

theorem readFullAt_short (pre : List UInt8) {tail : List UInt8} {n : Nat} (h : tail.length < n) :
    readFullAt (pre ++ tail) n pre.length = none := by
  simp [readFullAt, Nat.not_le.mpr h]

/-- A write at the end of the file appends. -/
theorem writeAt_length (f bs : List UInt8) : writeAt f f.length bs = f ++ bs := by
  simp [writeAt]

/-! ### The durability barrier -/

/-- A file: the bytes it holds and the bytes known to be durable. -/
structure File where
  /-- What a reader of the running system sees. -/
  bytes : List UInt8
  /-- What the last barrier made durable. -/
  synced : List UInt8
  deriving DecidableEq, Repr

namespace File

/-- A file just created: empty, and nothing of it durable. -/
def empty : File := ⟨[], []⟩

/-- A positional write, durable only after the next barrier. -/
def writeAt (f : File) (off : Nat) (bs : List UInt8) : File :=
  { f with bytes := ByteFile.writeAt f.bytes off bs }

/-- The barrier. -/
def sync (f : File) : File :=
  { f with synced := f.bytes }

variable (f : File)

theorem writeAt_bytes_end (bs : List UInt8) : (f.writeAt f.bytes.length bs).bytes = f.bytes ++ bs :=
  ByteFile.writeAt_length f.bytes bs

end File

end ByteFile
