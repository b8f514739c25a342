/-
A file that is written through a buffer.

What is kept here are sizes and places: the size in the inode's row, the high-water mark of
the writes since the buffer was cleared, and where these writes are.  The mark starts at the
committed size, and `Flush` clears it to zero.
-/
import Mathlib.Data.Nat.Notation

namespace Nufs.Chunkstore

/-- `BufferedFile`, with the size in the row of its inode.  Offsets do not run over. -/
structure BufferedFile where
  committed : Nat
  logicalSize : Nat
  dirty : Bool
  /-- Where the writes since the buffer was cleared start, and how long they are. -/
  buffered : List (Nat × Nat)
  deriving DecidableEq

namespace BufferedFile

/-- `NewBufferedFile`. -/
def new (committedSize : Nat) : BufferedFile := ⟨committedSize, committedSize, false, []⟩

variable (b : BufferedFile)

/-- `writeLocked`, for a write that the budget of dirty bytes lets pass. -/
def writeLocked (data : List UInt8) (off : Nat) : BufferedFile :=
  { b with
    logicalSize := if off + data.length > b.logicalSize then off + data.length else b.logicalSize
    dirty := b.dirty || !data.isEmpty
    buffered := (off, data.length) :: b.buffered }

/-- Where `AppendWrite` places its bytes. -/
def tail : Nat := if b.logicalSize = 0 then b.committed else b.logicalSize

/-- `Flush`. -/
def flush : BufferedFile :=
  if b.dirty then ⟨max b.logicalSize b.committed, 0, false, []⟩ else b

end BufferedFile

/-- A call on the file; a write may be refused for the budget of dirty bytes. -/
inductive BufferedCall
  | write (data : List UInt8) (off : Nat) (refused : Bool)
  | appendWrite (data : List UInt8) (refused : Bool)
  | flush

/-- The file after a call. -/
def BufferedFile.call (b : BufferedFile) : BufferedCall → Option BufferedFile
  | .write data off refused => some (if refused then b else b.writeLocked data off)
  | .appendWrite data refused => some (if refused then b else b.writeLocked data b.tail)
  | .flush => some b.flush

end Nufs.Chunkstore
