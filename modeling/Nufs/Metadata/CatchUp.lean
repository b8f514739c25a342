/-
When a node takes itself to be caught up.

Raft keeps a log whose beginning may be compacted away, and hands committed commands to the
state machine; entries of its own it keeps to itself.  A node that starts restores a snapshot
first, and is then handed the commands behind it; one that lags is sent a snapshot later on.
A command counts as consumed before it is in the store.
-/
import Mathlib.Data.List.Range

namespace Nufs.Metadata

/-- `raft.LogType`. -/
inductive LogType
  | command
  | noop
  | barrier
  | configuration
  deriving DecidableEq, Repr

/-- `RaftNode`, with the part of the log that is compacted away. -/
structure RaftNode where
  /-- The entries from index 1 on. -/
  entries : List LogType
  /-- The first index that `logs` still has. -/
  firstIndex : Nat
  commitIndex : Nat
  /-- The index of the snapshot the store was last restored from. -/
  restored : Nat
  /-- The last index consumed before that, 0 at the start. -/
  consumed : Nat
  /-- The calls of `PebbleFSM.Apply` that returned since: whether the store took the command, or
  refused it as that of every node does. -/
  returned : List Bool
  /-- A further call is behind `recordConsumed` and has not written yet. -/
  writing : Bool
  committed : commitIndex ≤ entries.length
  consumed_le : consumed ≤ restored

namespace RaftNode

variable (n : RaftNode)

def typeAt (idx : Nat) : Option LogType := if idx = 0 then none else n.entries[idx - 1]?

/-- `LogStore.GetLog`. -/
def getLog (idx : Nat) : Option LogType := if idx < n.firstIndex then none else n.typeAt idx

/-- The commands that raft hands over, in their order. -/
def commands : List Nat :=
  (List.range' (n.restored + 1) (n.commitIndex - n.restored)).filter fun idx =>
    n.typeAt idx = some .command

/-- How many commands `recordConsumed` has seen. -/
def delivered : Nat := n.returned.length + n.writing.toNat

/-- The loop of `CaughtUp` over a number of indexes. -/
def scan : Nat → Nat → Bool
  | 0, _ => true
  | k + 1, idx =>
    match n.getLog idx with
    -- Taken for an entry that a snapshot covers.
    | none => true
    | some .command => false
    | some _ => scan k (idx + 1)

/-- The snapshot has the command, or its call has written it. -/
def Applied (idx : Nat) : Prop := idx ≤ n.restored ∨ (idx, true) ∈ n.commands.zip n.returned

end RaftNode

end Nufs.Metadata
