/-
A serving store as a concurrent system.

Requests run in threads.  A `Write` or `Delete` looks its extent up in one step, is
committed together with others in a second, and hands its location to the apply
queue in a third.  The apply loop takes mutations from the queue and applies them in
two steps.  A flush holds the commit lock from its first phase to its last, which
keeps commits and appends out, but not the apply loop, lookups or relocations.

The log notes what a client can see: records that became visible, deletes that found
nothing, and what the calls returned.  I/O faults are not part of this system.
-/
import Nufs.Storage.Open

namespace Nufs.Storage

open ByteFile

/-- A thread that runs a request. -/
abbrev Thread := Nat

/-- A client's request. -/
inductive Request
  | write (k : Key) (data : List UInt8)
  | delete (k : Key)
  deriving DecidableEq

/-- Where a request stands. -/
inductive Progress
  /-- Looked up and built, waiting for its batch. -/
  | submitted (pw : PendingWrite)
  /-- Committed, its location not yet handed to the queue. -/
  | committed (pw : PlacedWrite)
  | returned (result : Except Err Unit)

/-- What a client can see, newest first in the log. -/
inductive Event
  /-- A record of a `Write` or a `Delete` was committed. -/
  | committed (k : Key) (op : RecordOp)
  /-- A `Delete` found nothing. -/
  | notFound (k : Key)
  /-- A `Delete` returned nil. -/
  | deleted (k : Key)
  /-- A `Write` returned a receipt for a payload with this checksum. -/
  | acked (k : Key) (checksum : UInt32)
  /-- A `Write` of a payload with this checksum returned an error. -/
  | refused (k : Key) (checksum : UInt32) (err : Err)
  /-- The commit of a record was cut off: it may have taken place or not. -/
  | interrupted (k : Key) (op : RecordOp)
  deriving DecidableEq

/-- The phases of a flush. -/
inductive FlushPhase
  | drained
  | applied
  | marked (cp : RecoveryCheckpoint)
  deriving DecidableEq

/-- The serving store with its threads. -/
structure Machine where
  store : Store
  calls : AList (fun _ : Thread => Request × Progress)
  /-- What the apply loop has taken and not yet applied. -/
  taken : Option (List Mutation)
  /-- The flush in progress; it holds the commit lock. -/
  flushing : Option (Flush × FlushPhase)
  /-- Relocations that found no tombstone and are about to publish. -/
  relocating : List Reloc
  log : List Event

/-- The steps of the system. -/
inductive Action
  | start (t : Thread) (req : Request) (nonce : Nat → List UInt8)
  | commit (ts : List Thread) (now : UInt64)
  | finish (t : Thread)
  | take
  | applyTaken
  | flushDrain
  | flushApply
  | flushMark
  | flushStore
  | flushAbort
  | append (k : Key) (data : List UInt8) (codec : CompressionCodec) (nonce : Nat → List UInt8)
      (now : UInt64)
  | relocateCheck (r : Reloc)
  | relocatePut (r : Reloc)

namespace Machine

/-- A machine around a store, with nothing in flight. -/
def init (s : Store) : Machine := ⟨s, ∅, none, none, [], []⟩

/-- The events of a call that returns. -/
def returnEvents : Request → Except Err Unit → List Event
  | .write k data, .ok _ => [.acked k (crc32c data)]
  | .write k data, .error e => [.refused k (crc32c data) e]
  | .delete k, .ok _ => [.deleted k]
  | .delete _, .error _ => []

/-- A call returns. -/
def ret (m : Machine) (t : Thread) (req : Request) (result : Except Err Unit) : Machine :=
  { m with
    calls := m.calls.insert t (req, .returned result)
    log := returnEvents req result ++ m.log }

/-- A thread runs one call at a time. -/
def idle (m : Machine) (t : Thread) : Bool :=
  match m.calls.lookup t with
  | none => true
  | some (_, .returned _) => true
  | some _ => false

/-- The first step of a call. -/
def start (c : FrameCodec) (t : Thread) (req : Request) (nonce : Nat → List UInt8) (m : Machine) :
    Machine :=
  match req with
  | .write k data =>
    match m.store.writeLookup k data with
    | some (.ok _) => m.ret t req (.ok ())
    | some (.error e) => m.ret t req (.error e)
    | none =>
      match Store.buildWrite c nonce k data with
      | .error e => m.ret t req (.error e)
      | .ok pw => { m with calls := m.calls.insert t (req, .submitted pw) }
  | .delete k =>
    match m.store.lookup k with
    | none => { m with log := .notFound k :: m.log }.ret t req (.ok ())
    | some v =>
      { m with calls := m.calls.insert t (req, .submitted (Store.deletePending k v)) }

/-- The request and the pending write of a thread that waits for its batch. -/
def submitted (m : Machine) (t : Thread) : Option (Request × PendingWrite) :=
  match m.calls.lookup t with
  | some (req, .submitted pw) => some (req, pw)
  | _ => none

/-- All threads of a failed batch return the same error. -/
def retAll (result : Except Err Unit) : List (Thread × Request) → Machine → Machine
  | [], m => m
  | (t, req) :: ts, m => retAll result ts (m.ret t req result)

/-- All threads of a committed batch go on, and their records are visible. -/
def commitAll : List (Thread × Request) → List PlacedWrite → Machine → Machine
  | (t, req) :: ts, pw :: placed, m =>
    commitAll ts placed
      { m with
        calls := m.calls.insert t (req, .committed pw)
        log := .committed pw.key pw.header.op :: m.log }
  | _, _, m => m

/-- The leader commits a batch of waiting writes. -/
def commit (ts : List Thread) (now : UInt64) (m : Machine) : Option Machine :=
  if m.flushing.isSome ∨ ts = [] ∨ ¬ ts.Nodup then none
  else
    match ts.mapM m.submitted with
    | none => none
    | some batch =>
      let owners := ts.zip (batch.map Prod.fst)
      match Store.commitBatch none now (batch.map Prod.snd) m.store with
      | (.error e, s) => some (retAll (.error e) owners { m with store := s })
      | (.ok placed, s) => some (commitAll owners placed { m with store := s })

/-- A committed call hands its location over and returns. -/
def finish (t : Thread) (m : Machine) : Option Machine :=
  match m.calls.lookup t with
  | some (req, .committed pw) => some ({ m with store := m.store.finish pw }.ret t req (.ok ()))
  | _ => none

section

variable (m : Machine)

/-- The apply loop takes the oldest batch of the queue. -/
def take : Option Machine :=
  match m.taken, m.store.applyCh with
  | none, muts :: queue =>
    some { m with taken := some muts, store := { m.store with applyCh := queue } }
  | _, _ => none

def applyTaken : Option Machine :=
  match m.taken with
  | none => none
  | some muts => some { m with taken := none, store := m.store.applyNow muts }

def flushDrain : Option Machine :=
  match m.flushing with
  | some _ => none
  | none =>
    let r := m.store.flushDrain
    some { m with store := r.2, flushing := r.1.map fun fl => (fl, .drained) }

def flushApply : Option Machine :=
  match m.flushing with
  | some (fl, .drained) =>
    some { m with store := m.store.applyNow fl.muts, flushing := some (fl, .applied) }
  | _ => none

/-- The marker is written; without room for it the flush fails. -/
def flushMark : Option Machine :=
  match m.flushing with
  | some (fl, .applied) =>
    match m.store.writeIndexSafeLocked none fl.safe with
    | (.error _, s) => some { m with store := s.flushAbort, flushing := none }
    | (.ok cp, s) => some { m with store := s, flushing := some (fl, .marked cp) }
  | _ => none

def flushStore : Option Machine :=
  match m.flushing with
  | some (fl, .marked cp) =>
    match m.store.storeRecoveryCheckpoint cp with
    | .error _ => some { m with store := m.store.flushAbort, flushing := none }
    | .ok s => some { m with store := s.flushDone fl, flushing := none }
  | _ => none

/-- A flush gives up in any phase. -/
def flushAbort : Option Machine :=
  match m.flushing with
  | none => none
  | some _ => some { m with store := m.store.flushAbort, flushing := none }

end

/-- The compactor appends a record under the commit lock. -/
def append (c : FrameCodec) (k : Key) (data : List UInt8) (codec : CompressionCodec)
    (nonce : Nat → List UInt8) (now : UInt64) (m : Machine) : Option Machine :=
  match m.flushing with
  | some _ => none
  | none =>
    match Store.buildAppend c nonce k data codec with
    | .error _ => some m
    | .ok pw => some { m with store := (m.store.appendRecord none now pw).2 }

/-- A relocation looks for a tombstone in the overlay. -/
def relocateCheck (r : Reloc) (m : Machine) : Machine :=
  match m.store.overlay.get r.key with
  | some v => if v.state = .tombstoned then m else { m with relocating := r :: m.relocating }
  | none => { m with relocating := r :: m.relocating }

/-- A relocation that found none publishes. -/
def relocatePut (r : Reloc) (m : Machine) : Option Machine :=
  if r ∈ m.relocating then
    some { m with
      relocating := m.relocating.erase r
      store := { m.store with
        overlay := m.store.overlay.put r.key r.value
        locCache := m.store.locCache.erase r.key } }
  else none

/-- One step of the system. -/
def step (c : FrameCodec) (m : Machine) : Action → Option Machine
  | .start t req nonce => if m.idle t then some (m.start c t req nonce) else none
  | .commit ts now => m.commit ts now
  | .finish t => m.finish t
  | .take => m.take
  | .applyTaken => m.applyTaken
  | .flushDrain => m.flushDrain
  | .flushApply => m.flushApply
  | .flushMark => m.flushMark
  | .flushStore => m.flushStore
  | .flushAbort => m.flushAbort
  | .append k data codec nonce now => m.append c k data codec nonce now
  | .relocateCheck r => some (m.relocateCheck r)
  | .relocatePut r => m.relocatePut r

end Machine

end Nufs.Storage
