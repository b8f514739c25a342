/-
The datanode's chunk store over several disks.

A chunk lives on one disk, in the data stream or in the small-file stream, at one
generation; the location map says where.  Writes are routed by it, moves copy an
extent and re-point it, deletes tombstone the extent it names.  A chunk that is not
in the map is looked for on the first disk at generation one.

Calls run one after the other here.  The capacity of the disks, the outcome of
tombstones that are written best-effort and the order of a listing come from outside.
-/
import Nufs.Datanode.Backend

namespace Nufs.Datanode

open Nufs.Storage

/-- `chunkLoc`: where a chunk lives and at what generation. -/
structure ChunkLoc where
  disk : Nat
  gen : Generation
  small : Bool
  deriving DecidableEq, Repr

/-- `V2Store`. -/
structure V2Store where
  disks : List DiskBackend
  /-- The small-file streams, one per disk if there are any. -/
  small : List DiskBackend
  locOf : AList fun _ : ChunkID => ChunkLoc
  disks_pos : 0 < disks.length
  small_length : small = [] ∨ small.length = disks.length

/-- What a call finds outside the store. -/
structure Env where
  /-- The capacity guard of the disk refuses writes. -/
  full : Nat → Bool
  /-- A tombstone of this chunk that is written best-effort fails. -/
  tombstoneFails : ChunkID → Bool
  /-- The order in which a listing is enumerated. -/
  enumerate : List LiveExtent → List LiveExtent
  enumerate_perm : ∀ l, (enumerate l).Perm l

/-- `SmallFileThreshold`. -/
def smallFileThreshold : Nat := 64 * 2 ^ 10

namespace V2Store

/-! ### Backends and locations -/

variable (v : V2Store)

/-- The backends of one kind of stream. -/
def streams (small : Bool) : List DiskBackend := if small then v.small else v.disks

def backend (small : Bool) (i : Nat) : DiskBackend := (v.streams small).getD i default

/-- Change one backend. -/
def modifyBackend (small : Bool) (i : Nat) (f : DiskBackend → DiskBackend) : V2Store :=
  if small then
    { v with
      small := v.small.modify i f
      small_length := by simpa [List.modify_eq_nil_iff] using v.small_length }
  else
    { v with
      disks := v.disks.modify i f
      disks_pos := by simpa using v.disks_pos
      small_length := by simpa using v.small_length }

def setLoc (c : ChunkID) (loc : ChunkLoc) : V2Store :=
  { v with locOf := v.locOf.insert c loc }

def dropLoc (c : ChunkID) : V2Store := { v with locOf := v.locOf.erase c }

/-- `diskFailed`: small streams share the health of their disk. -/
def diskFailed (i : Nat) : Bool :=
  diskHealthFailedThreshold ≤ (v.backend false i).failCount

/-- `currentLoc`. -/
def currentLoc (c : ChunkID) : Option ChunkLoc := v.locOf.lookup c

/-- `loc`: an unknown chunk is expected on the first disk at generation one. -/
def loc (c : ChunkID) : ChunkLoc :=
  let loc := (v.locOf.lookup c).getD ⟨0, 1, false⟩
  if v.disks.length ≤ loc.disk then { loc with disk := 0 } else loc

/-- Which backend `backendAt` picks for a location. -/
def backendIndex (loc : ChunkLoc) : Bool × Nat :=
  if loc.small ∧ loc.disk < v.small.length then (true, loc.disk)
  else if v.disks.length ≤ loc.disk then (false, 0)
  else (false, loc.disk)

/-- `backendAt`. -/
def backendAt (loc : ChunkLoc) : DiskBackend :=
  v.backend (v.backendIndex loc).1 (v.backendIndex loc).2

/-- `leastUsedSmall`. -/
def leastUsedSmall : Nat := (leastUsed v.diskFailed v.small).getD 0

/-- `nextLoc`: the owning disk and the next generation, or the least-used disk for a new chunk. -/
def nextLoc (c : ChunkID) : Nat × Generation :=
  match v.locOf.lookup c with
  | some loc => (loc.disk, loc.gen + 1)
  | none => ((leastUsed v.diskFailed v.disks).getD 0, 1)

/-- `leastUsedDisk`. -/
def leastUsedDisk (exclude : Nat) : Option Nat :=
  leastUsed (fun i => i == exclude || v.diskFailed i) v.disks

/-! ### Writing -/

/-- What a successful write adds to the used bytes: the size it replaces is taken off. -/
def usedDelta (s : SegmentStore) (c : ChunkID) (gen : Generation) (data : List UInt8) : Int :=
  if 1 < gen then
    match s.stat (c, gen - 1) with
    | .ok old => data.length - old
    | .error _ => data.length
  else data.length

/-- The accounting of a successful write. -/
def DiskBackend.written (s : SegmentStore) (c : ChunkID) (gen : Generation) (data : List UInt8)
    (b : DiskBackend) : DiskBackend :=
  { b with
    store := s
    failCount := 0
    usedByts := b.usedByts + usedDelta s c gen data
    extCount := if gen = 1 then b.extCount + 1 else b.extCount }

variable (env : Env)

/-- The body `writeTo` and `writeSmallTo` share; `refusing` is the end of the health error. -/
def writeStream (small : Bool) (refusing : String) (v : V2Store) (c : ChunkID) (i : Nat)
    (gen : Generation) (data : List UInt8) : Except Err Unit × V2Store :=
  if v.diskFailed i then
    (.error (.message ("datanode: disk " ++ toString i ++ " is FAILED, refusing " ++ refusing)), v)
  else if env.full i then (.error .capacity, v)
  else
    match (v.backend small i).store.write (c, gen) data with
    | .error e =>
      (.error e, v.modifyBackend small i fun b => { b with failCount := b.failCount + 1 })
    | .ok s => (.ok (), (v.modifyBackend small i (DiskBackend.written s c gen data)).setLoc c
        ⟨i, gen, small⟩)

/-- `writeTo`. -/
def writeTo (v : V2Store) (c : ChunkID) (disk : Nat) (gen : Generation)
    (data : List UInt8) : Except Err Unit × V2Store :=
  let disk := if v.disks.length ≤ disk then 0 else disk
  writeStream env false "write" v c disk gen data

/-- `writeSmallTo`: without small streams it falls back to the data stream. -/
def writeSmallTo (v : V2Store) (c : ChunkID) (i : Nat) (gen : Generation)
    (data : List UInt8) : Except Err Unit × V2Store :=
  if v.small = [] then
    let (disk, g) := v.nextLoc c
    writeTo env v c disk g data
  else
    let i := if v.small.length ≤ i then 0 else i
    writeStream env true "small write" v c i gen data

/-- Tombstone an extent best-effort and take it off the accounting. -/
def tombstoneSmall (c : ChunkID) (gen : Generation) (b : DiskBackend) : DiskBackend :=
  let b :=
    match b.store.stat (c, gen) with
    | .ok old => { b with usedByts := b.usedByts - old }
    | .error _ => b
  match b.store.delete (c, gen) with
  | .ok s => if env.tombstoneFails c then b else { b with store := s, extCount := b.extCount - 1 }
  | .error _ => b

/-- `migrateSmallToData`: the grown payload first, then the tombstone of the small extent. -/
def migrateSmallToData (v : V2Store) (c : ChunkID) (loc : ChunkLoc) (gen : Generation)
    (data : List UInt8) : Except Err Unit × V2Store :=
  let (best, _) := v.nextLoc c
  match writeTo env v c best gen data with
  | (.error e, v) => (.error e, v)
  | (.ok _, v) =>
    (.ok (), if loc.disk < v.small.length then
        v.modifyBackend true loc.disk (tombstoneSmall env c loc.gen)
      else v)

/-- `Write`: the datanode counts the generations itself. -/
def write (v : V2Store) (c : ChunkID) (data : List UInt8) : Except Err Unit × V2Store :=
  match v.currentLoc c with
  | some loc =>
    if loc.small then
      if data.length ≤ smallFileThreshold then writeSmallTo env v c loc.disk (loc.gen + 1) data
      else migrateSmallToData env v c loc (loc.gen + 1) data
    else
      let (disk, gen) := v.nextLoc c
      writeTo env v c disk gen data
  | none =>
    if v.small ≠ [] ∧ data.length ≤ smallFileThreshold then
      writeSmallTo env v c v.leastUsedSmall 1 data
    else
      let (disk, gen) := v.nextLoc c
      writeTo env v c disk gen data

/-- `WriteGen`: the metadata service issued the generation. -/
def writeGen (v : V2Store) (c : ChunkID) (gen : Generation) (data : List UInt8) :
    Except Err Unit × V2Store :=
  match v.currentLoc c with
  | some loc =>
    if loc.small then
      if data.length ≤ smallFileThreshold then writeSmallTo env v c loc.disk gen data
      else migrateSmallToData env v c loc gen data
    else writeTo env v c loc.disk gen data
  | none =>
    if v.small ≠ [] ∧ data.length ≤ smallFileThreshold then
      writeSmallTo env v c v.leastUsedSmall gen data
    else
      let (best, _) := v.nextLoc c
      writeTo env v c best gen data

/-! ### Reading and deleting -/

/-- `Read` of the whole chunk. -/
def read (c : ChunkID) : Except Err (List UInt8 × UInt32) :=
  let loc := v.loc c
  (v.backendAt loc).store.read (c, loc.gen)

/-- Take the size a `Stat` returned off the used bytes. -/
def dropUsed (small : Bool) (i : Nat) : Except Err Nat → V2Store
  | .ok len => v.modifyBackend small i fun b => { b with usedByts := b.usedByts - len }
  | .error _ => v

/-- `Delete`. -/
def delete (c : ChunkID) : Except Err Unit × V2Store :=
  let loc := v.loc c
  let (small, i) := v.backendIndex loc
  let store := (v.backendAt loc).store
  let v := v.dropUsed small i (store.stat (c, loc.gen))
  match store.delete (c, loc.gen) with
  | .error e => (.error e, v)
  | .ok s =>
    let v := v.modifyBackend small i fun b => { b with store := s, extCount := b.extCount - 1 }
    (.ok (), v.dropLoc c)

/-! ### Moving chunks -/

/-- The index range check of the disk operations. -/
def inRange (i : Int) : Bool := 0 ≤ i ∧ i < v.disks.length

/-- The source tombstone of a migration, best-effort. -/
def removeSource (env : Env) (c : ChunkID) (gen : Generation) (b : DiskBackend) : DiskBackend :=
  match b.store.delete (c, gen) with
  | .ok s => if env.tombstoneFails c then b else { b with store := s }
  | .error _ => b

/-- The check before a re-point: the chunk still lives where it was read. -/
def stillAt (c : ChunkID) (disk : Nat) (gen : Generation) : Bool :=
  match v.locOf.lookup c with
  | some cur => cur.disk = disk ∧ cur.gen = gen
  | none => false

/-- The end of a move: re-point, remove the source if asked to, and move the accounting. -/
def repoint (env : Env) (v : V2Store) (c : ChunkID) (gen : Generation) (src dst : Nat)
    (remove : Bool) (data : List UInt8) : V2Store :=
  let v := v.setLoc c ⟨dst, gen, false⟩
  let v := if remove then v.modifyBackend false src (removeSource env c gen) else v
  let v := v.modifyBackend false src fun b =>
    { b with usedByts := b.usedByts - data.length, extCount := b.extCount - 1 }
  v.modifyBackend false dst fun b =>
    { b with usedByts := b.usedByts + data.length, extCount := b.extCount + 1 }

/-- `rebalanceOne`: copy at the same generation, re-point, and for a migration remove the source. -/
def rebalanceOne (env : Env) (v : V2Store) (c : ChunkID) (fromDisk toDisk : Int) (remove : Bool) :
    Except Err Unit × V2Store :=
  if fromDisk = toDisk then
    (.error (.message ("rebalance: fromDisk == toDisk (" ++ toString fromDisk ++ ")")), v)
  else if ¬ v.inRange toDisk ∨ ¬ v.inRange fromDisk then
    (.error (.message ("rebalance: disk index out of range (from=" ++ toString fromDisk ++ " to=" ++
      toString toDisk ++ ")")), v)
  else if v.diskFailed toDisk.toNat then
    (.error (.message ("rebalance: target disk " ++ toString toDisk ++ " is failed")), v)
  else
    match v.locOf.lookup c with
    | none => (.error (.wrapped ("chunk " ++ toString c) .extentNotFound), v)
    | some loc =>
      if loc.disk ≠ fromDisk.toNat then
        (.error (.message ("rebalance: chunk " ++ toString c ++ " lives on disk " ++
          toString loc.disk ++ ", not " ++ toString fromDisk)), v)
      else
        match (v.backend false fromDisk.toNat).store.read (c, loc.gen) with
        | .error e => (.error e, v)
        | .ok (data, _) =>
          match (v.backend false toDisk.toNat).store.write (c, loc.gen) data with
          | .error e =>
            (.error e, v.modifyBackend false toDisk.toNat fun b =>
              { b with failCount := b.failCount + 1 })
          | .ok s =>
            let v := v.modifyBackend false toDisk.toNat fun b =>
              { b with store := s, failCount := 0 }
            if ¬ v.stillAt c fromDisk.toNat loc.gen then
              (.error (.message ("rebalance: chunk " ++ toString c ++
                " moved concurrently during rebalance")), v)
            else
              (.ok (), v.repoint env c loc.gen fromDisk.toNat toDisk.toNat remove data)

/-- The chunks `MigrateDisk` finds on a disk. -/
def migrating (extents : List LiveExtent) : List ChunkID :=
  (extents.filter fun e => e.generation ≠ 0).map LiveExtent.extentID

/-- The loop of `MigrateDisk`: it stops when no healthy target remains. -/
def migrateAll (env : Env) (src : Nat) : List ChunkID → Nat → V2Store → Nat × V2Store
  | [], migrated, v => (migrated, v)
  | c :: cs, migrated, v =>
    match v.leastUsedDisk src with
    | none => (migrated, v)
    | some dst =>
      match v.rebalanceOne env c src dst true with
      | (.ok _, v) => migrateAll env src cs (migrated + 1) v
      | (.error _, v) => migrateAll env src cs migrated v

/-- `MigrateDisk`. -/
def migrateDisk (env : Env) (v : V2Store) (srcIdx : Int) : Except Err Nat × V2Store :=
  if ¬ v.inRange srcIdx then
    (.error (.message ("migrate disk: index " ++ toString srcIdx ++ " out of range (have " ++
      toString v.disks.length ++ ")")), v)
  else if v.disks.length ≤ 1 then
    (.error (.message "migrate disk: cannot migrate the only disk"), v)
  else
    match (v.backend false srcIdx.toNat).store.listExtents with
    | .error e =>
      (.error (.wrapped ("migrate disk: enumerate disk " ++ toString srcIdx) e), v)
    | .ok extents =>
      let r := migrateAll env srcIdx.toNat (migrating (env.enumerate extents)) 0 v
      (.ok r.1, r.2)

/-- `RemoveDisk`: the disk counts as failed, its slot stays. -/
def removeDisk (idx : Int) : Except Err Unit × V2Store :=
  if ¬ v.inRange idx then
    (.error (.message ("remove disk: index " ++ toString idx ++ " out of range (have " ++
      toString v.disks.length ++ ")")), v)
  else if v.disks.length ≤ 1 then (.error (.message "remove disk: cannot remove the only disk"), v)
  else
    (.ok (), v.modifyBackend false idx.toNat fun b =>
      { b with failCount := diskHealthFailedThreshold })

/-! ### Building the location map -/

/-- Enter the extents of one backend into the location map. -/
def enterExtents (i : Nat) (small : Bool) (extents : List LiveExtent)
    (locOf : AList fun _ : ChunkID => ChunkLoc) : AList fun _ : ChunkID => ChunkLoc :=
  extents.foldl (fun m e => m.insert e.extentID ⟨i, e.generation, small⟩) locOf

/-- What the constructors make of a store: a listing that fails counts as none. -/
def scan (s : SegmentStore) : List LiveExtent :=
  match s.listExtents with
  | .ok extents => extents
  | .error _ => []

/-- The location map of stores that are scanned in order, the last one winning. -/
def enterAll (small : Bool) (stores : List SegmentStore)
    (locOf : AList fun _ : ChunkID => ChunkLoc) : AList fun _ : ChunkID => ChunkLoc :=
  stores.zipIdx.foldl (fun m s => enterExtents s.2 small (scan s.1) m) locOf

/-- `NewMultiV2Store` over stores with their disk roots. -/
def newMultiV2Store (stores : List (SegmentStore × String)) (h : 0 < stores.length) : V2Store where
  disks := stores.map fun s => .adopt s.1 s.2 (scan s.1)
  small := []
  locOf := enterAll false (stores.map Prod.fst) ∅
  disks_pos := by simpa using h
  small_length := .inl rfl

/-- `AttachSmallStores` on a store without small streams. -/
def attachSmallStores (stores : List SegmentStore) : Except Err V2Store :=
  if h : 0 < stores.length ∧ stores.length ≠ v.disks.length then
    .error (.message ("attach small stores: got " ++ toString stores.length ++ " stores for " ++
      toString v.disks.length ++ " disks"))
  else
    .ok { v with
      small := stores.map fun s => .adopt s "" (scan s)
      locOf := enterAll true stores v.locOf
      small_length := by
        rcases Nat.eq_zero_or_pos stores.length with hz | hz
        · exact .inl (by simpa using hz)
        · exact .inr (by simpa using (not_and.mp h hz)) }

/-- A process start over the same stores. -/
def restart : Except Err V2Store :=
  (newMultiV2Store (v.disks.map fun b => (b.store, b.dir))
    (by simpa using v.disks_pos)).attachSmallStores
    (v.small.map DiskBackend.store)

/-- `retiredDiskIndexFor`. -/
def retiredDiskIndexFor (dir : String) : Option Nat :=
  (List.range v.disks.length).find? fun i => (v.backend false i).dir = dir ∧ v.diskFailed i

/-- Close the stores of a retired disk, to release their locks. -/
def closeDisk (i : Nat) : V2Store :=
  (v.modifyBackend false i fun b => { b with store := b.store.close }).modifyBackend true i
    fun b => { b with store := b.store.close }

/-- Append the backends of an adopted disk and point the chunks they list at it. -/
def appendDisk (data : DiskBackend) (extents : List LiveExtent)
    (small : Option (DiskBackend × List LiveExtent)) (h : small.isSome = (v.small ≠ [] : Bool)) :
    V2Store :=
  let n := v.disks.length
  let locOf := enterExtents n false extents v.locOf
  { disks := v.disks ++ [data]
    small := v.small ++ (small.map Prod.fst).toList
    locOf := match small with
      | none => locOf
      | some (_, smallExtents) => enterExtents n true smallExtents locOf
    disks_pos := by simp
    small_length := by
      cases small with
      | none =>
        have hnil : v.small = [] := by simpa using h
        exact .inl (by simp [hnil])
      | some s =>
        have hne : v.small ≠ [] := by simpa using h
        exact .inr (by simpa using v.small_length.resolve_left hne) }

/-- `AddDisk`; `factory` opens the data and the small store of a directory. -/
def addDisk (factory : String → Except Err (SegmentStore × Option SegmentStore)) (v : V2Store)
    (dir : String) : Except Err Nat × V2Store :=
  let v :=
    match v.retiredDiskIndexFor dir with
    | some idx => v.closeDisk idx
    | none => v
  match factory dir with
  | .error e => (.error (.wrapped ("add disk: build engine store for " ++ dir) e), v)
  | .ok (data, small) =>
    match data.listExtents with
    | .error e => (.error (.wrapped ("add disk: enumerate data store for " ++ dir) e), v)
    | .ok extents =>
      if hs : v.small = [] then
        (.ok v.disks.length,
          v.appendDisk (.adopt data dir extents) extents none (by simp [hs]))
      else
        match small with
        | none => (.error (.message ("add disk: factory returned no small stream for " ++ dir)), v)
        | some small =>
          match small.listExtents with
          | .error e =>
            (.error (.wrapped ("add disk: enumerate small store for " ++ dir) e), v)
          | .ok smallExtents =>
            (.ok v.disks.length,
              v.appendDisk (.adopt data dir extents) extents
                (some (.adopt small "" smallExtents, smallExtents)) (by simp [hs]))

end V2Store

end Nufs.Datanode
