/-
Inode IDs: the counter, the free list and who leads.

A store mints an ID from its free list, and from a counter when the list is empty.  Both are
in the memory of the process.  The free list is also kept in rows, which a start reads; the
counter is raised to the largest inode row once, at the first use.  The rows are replicated
and a leader has caught up with them before it mints; a process that starts may read older
ones.
-/
import Mathlib.Data.List.Perm.Basic
import Mathlib.Order.Basic

namespace Nufs.Inodes

/-- An `InodeID` is a `uint64`. -/
abbrev InodeID := Nat

/-- The number of IDs, after which the counter wraps. -/
def idCount : Nat := 18446744073709551616

/-- `RootInodeID`. -/
def rootInodeID : InodeID := 1

/-- The rows: entries by their key, inodes, and the free list. -/
structure Rows where
  entries : List (List Char × InodeID)
  inodes : List InodeID
  freeList : List InodeID
deriving DecidableEq

/-- What a process keeps in memory. -/
structure Memory where
  inodeSeq : Nat
  inodeIDMaxInit : Bool
  inodeFreeList : List InodeID

/-- The memory after a start, with the free list in the order of the scan. -/
def Memory.start (order : List InodeID) : Memory := ⟨rootInodeID, false, order⟩

/-- `ensureInodeIDMax`. -/
def ensureInodeIDMax (rows : Rows) (m : Memory) : Memory :=
  if m.inodeIDMaxInit then m
  else { m with inodeSeq := rows.inodes.foldl max m.inodeSeq, inodeIDMaxInit := true }

/-- `reseedInodeIDMax`. -/
def reseedInodeIDMax (rows : Rows) (m : Memory) : Memory :=
  ensureInodeIDMax rows { m with inodeIDMaxInit := false }

structure Minted where
  id : InodeID
  rows : Rows
  mem : Memory

/-- `nextInodeID`; the removal of the free list's row may fail. -/
def nextInodeID (removed : Bool) (rows : Rows) (m : Memory) : Minted :=
  match m.inodeFreeList.getLast? with
  | some id =>
    { id
      rows := if removed then { rows with freeList := rows.freeList.filter (· ≠ id) } else rows
      mem := { m with inodeFreeList := m.inodeFreeList.dropLast } }
  | none =>
    let m := ensureInodeIDMax rows m
    let seq := (m.inodeSeq + 1) % idCount
    { id := seq, rows, mem := { m with inodeSeq := seq } }

/-- `releaseInodeID`; writing the free list's row may fail. -/
def releaseInodeID (written : Bool) (id : InodeID) (rows : Rows) (m : Memory) : Rows × Memory :=
  if id ≤ rootInodeID then (rows, m)
  else if m.inodeFreeList.length < 65536 then
    (if written then { rows with freeList := rows.freeList.insert id } else rows,
      { m with inodeFreeList := m.inodeFreeList ++ [id] })
  else (rows, m)

/-- The conditional batch of a create: neither the entry nor the inode may exist. -/
def Rows.create (rows : Rows) (name : List Char) (id : InodeID) : Option Rows :=
  if name ∈ rows.entries.map Prod.fst ∨ id ∈ rows.inodes then none
  else some { rows with entries := (name, id) :: rows.entries, inodes := id :: rows.inodes }

/-- `applyNamespaceCreate`: a conflict is retried once with a new ID; nothing, for
`ErrEntryExists`. -/
def applyNamespaceCreate (removed removed' : Bool) (name : List Char) (rows : Rows) (m : Memory) :
    Option InodeID × Rows × Memory :=
  let first := nextInodeID removed rows m
  match first.rows.create name first.id with
  | some rows => (some first.id, rows, first.mem)
  | none =>
    let second := nextInodeID removed' first.rows (reseedInodeIDMax first.rows first.mem)
    match second.rows.create name second.id with
    | some rows => (some second.id, rows, second.mem)
    | none => (none, second.rows, second.mem)

/-- The batch of an `Unlink` of the last link, or of a `RmDir`. -/
def Rows.unlink (rows : Rows) (name : List Char) (id : InodeID) : Rows :=
  { rows with
    entries := rows.entries.filter (·.1 ≠ name)
    inodes := rows.inodes.filter (· ≠ id) }

/-! ### A cluster -/

/-- The rows now and before, the memory of every node, and the leader. -/
structure World where
  rows : Rows
  past : List Rows
  mem : Nat → Memory
  leader : Option Nat

inductive Event
  | create (n : Nat) (name : List Char) (removed removed' : Bool)
  | unlink (n : Nat) (name : List Char) (written : Bool)
  /-- A node starts on rows it had applied. -/
  | restart (n : Nat) (seen : Rows) (order : List InodeID)
  | elect (n : Nat)

def World.set (w : World) (n : Nat) (rows : Rows) (m : Memory) : World :=
  { w with rows, past := w.rows :: w.past, mem := Function.update w.mem n m }

def World.step (w : World) : Event → Option World
  | .create n name removed removed' =>
    if w.leader = some n then
      let out := applyNamespaceCreate removed removed' name w.rows (w.mem n)
      some (w.set n out.2.1 out.2.2)
    else none
  | .unlink n name written =>
    if w.leader = some n then
      (w.rows.entries.find? (·.1 = name)).map fun e =>
        let out := releaseInodeID written e.2 (w.rows.unlink name e.2) (w.mem n)
        w.set n out.1 out.2
    else none
  | .restart n seen order =>
    if seen ∈ w.rows :: w.past ∧ order.Perm seen.freeList then
      some { w with
        mem := Function.update w.mem n (.start order)
        leader := w.leader.filter (· ≠ n) }
    else none
  | .elect n => some { w with leader := some n }

/-- A new store: the root, and nodes that have just started. -/
def World.new : World := ⟨⟨[], [rootInodeID], []⟩, [], fun _ => .start [], none⟩

end Nufs.Inodes
