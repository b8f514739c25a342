/-
When a node that takes itself to be caught up is so.

The scan starts behind the last entry handed over and ends at the first index the log does
not have.  Behind a restored snapshot nothing has been handed over, so after a start it starts
at index 1; if the log was compacted, it ends there and has seen nothing.
-/
import Nufs.Metadata.CatchUp

namespace Nufs.Metadata.RaftNode

open List

variable {n : RaftNode} {idx : Nat}

/-- Every call so far has returned, and the store took its command. -/
def Written (n : RaftNode) : Prop :=
  ∀ i < n.delivered, i < n.commands.length → n.returned[i]? = some true

/-- A node with all of its log, before the first call of `Apply`. -/
def started : RaftNode := ⟨[.command], 1, 1, 0, 0, [], false, le_refl _, le_refl _⟩

end Nufs.Metadata.RaftNode
