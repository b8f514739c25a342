/-
Where appended bytes land.

`AppendWrite` takes the high-water mark for the end of the file.  A flush clears the mark, and
a write in the middle of the file sets it again, short of the end: what is appended then
overwrites committed bytes.  A write that starts a new mark must reach the committed size.
-/
import Nufs.Chunkstore.Buffered
import Nufs.Lib.Guarded
import Nufs.Lib.Maximum

namespace Nufs.Chunkstore

namespace BufferedFile

section

variable (b : BufferedFile)

/-- The highest end of a buffered write. -/
def bufferedEnd : Nat := (b.buffered.map fun w => w.1 + w.2).foldr max 0

/-- **The condition on a call**: a write that a cleared buffer takes reaches the committed size. -/
def ReachesEnd : BufferedCall → Prop
  | .write data off refused => refused = false → b.logicalSize = 0 →
    off + data.length = 0 ∨ b.committed ≤ off + data.length
  | _ => True

instance : ∀ c, Decidable (b.ReachesEnd c)
  | .write _ _ _ => inferInstanceAs (Decidable (_ → _))
  | .appendWrite _ _ | .flush => isTrue trivial

/-- The mark is cleared, or it is the end of the file. -/
def Marks : Prop :=
  b.logicalSize = 0 ∧ b.bufferedEnd = 0 ∨ b.logicalSize = max b.committed b.bufferedEnd

end

variable {b b' : BufferedFile} {c : BufferedCall}

theorem Marks.writeLocked (h : b.Marks) {data : List UInt8} {off : Nat}
    (hreach : b.logicalSize = 0 → off + data.length = 0 ∨ b.committed ≤ off + data.length) :
    (b.writeLocked data off).Marks := by
  have hend : (b.writeLocked data off).bufferedEnd = max (off + data.length) b.bufferedEnd := rfl
  unfold Marks at h ⊢
  rw [hend]
  unfold BufferedFile.writeLocked
  dsimp only
  split_ifs with hhigh <;> omega

theorem Marks.call (h : b.Marks) (hreach : b.ReachesEnd c) (hcall : b.call c = some b') :
    b'.Marks := by
  cases c with
  | write data off refused =>
    cases hcall
    split_ifs with hrefused
    · exact h
    · exact h.writeLocked (hreach (Bool.eq_false_iff.mpr hrefused))
  | appendWrite data refused =>
    cases hcall
    split_ifs
    · exact h
    · refine h.writeLocked fun hzero => .inr ?_
      rw [tail, if_pos hzero]
      omega
  | flush =>
    cases hcall
    unfold BufferedFile.flush
    split_ifs
    · exact .inl ⟨rfl, rfl⟩
    · exact h

end BufferedFile

end Nufs.Chunkstore
