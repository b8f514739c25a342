/-
A datanode store in use.

Calls come one after the other; the log notes what a client was told: the writes that
were acknowledged, with the generation they got, and the deletes.
-/
import Nufs.Datanode.V2Store

namespace Nufs.Datanode

open Nufs.Storage

/-- A call of the store. -/
inductive Call
  | write (c : ChunkID) (data : List UInt8)
  | writeGen (c : ChunkID) (gen : Generation) (data : List UInt8)
  | delete (c : ChunkID)
  | rebalanceOne (c : ChunkID) (fromDisk toDisk : Int)
  | migrateDisk (srcIdx : Int)
  | removeDisk (idx : Int)
  deriving DecidableEq, Repr

/-- What a client was told. -/
inductive Event
  /-- A write was acknowledged. -/
  | acked (c : ChunkID) (gen : Generation) (data : List UInt8)
  /-- A delete was acknowledged; the generation is the one it found the chunk at. -/
  | deleted (c : ChunkID) (gen : Option Generation)
  deriving DecidableEq, Repr

/-- The payload of the last acknowledged write of a chunk that was not deleted since. -/
def lastWritten : List Event → ChunkID → Option (List UInt8)
  | [], _ => none
  | .acked c _ data :: log, k => if c = k then some data else lastWritten log k
  | .deleted c _ :: log, k => if c = k then none else lastWritten log k

/-- A store and what its clients were told, newest first. -/
structure Session where
  store : V2Store
  log : List Event

namespace Session

/-- Note what a call told its client. -/
def note {α : Type} (s : Session) (event : Event) : Except Err α × V2Store → Session
  | (.ok _, v) => ⟨v, event :: s.log⟩
  | (.error _, v) => { s with store := v }

/-- Run a call. -/
def call (s : Session) (env : Env) : Call → Session
  | .write c data => s.note (.acked c (s.store.nextLoc c).2 data) (s.store.write env c data)
  | .writeGen c gen data => s.note (.acked c gen data) (s.store.writeGen env c gen data)
  | .delete c =>
    s.note (.deleted c ((s.store.currentLoc c).map ChunkLoc.gen)) (s.store.delete c)
  | .rebalanceOne c fromDisk toDisk =>
    { s with store := (s.store.rebalanceOne env c fromDisk toDisk false).2 }
  | .migrateDisk srcIdx => { s with store := (s.store.migrateDisk env srcIdx).2 }
  | .removeDisk idx => { s with store := (s.store.removeDisk idx).2 }

/-- One step of a client: a call in an environment. -/
def step (s : Session) (a : Env × Call) : Option Session := some (s.call a.1 a.2)

/-- A datanode over new disks, with or without small streams. -/
def new (dirs : List String) (h : 0 < dirs.length) (small : Bool) : Session where
  store :=
    { disks := dirs.map fun dir => .adopt .empty dir []
      small := if small then dirs.map fun _ => .adopt .empty "" [] else []
      locOf := ∅
      disks_pos := by simpa using h
      small_length := by cases small <;> simp }
  log := []

end Session

end Nufs.Datanode
