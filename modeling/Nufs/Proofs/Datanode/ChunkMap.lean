/-
The datanode store as a map from chunks to payloads.

The invariant: a located chunk is live at its location with the payload its client
wrote last, and a chunk without a location is not live where an unknown chunk is
looked for, on the first disk at generation one.  Three kinds of steps can break it:
a write that a leftover of another payload (or a tombstone of the same one)
acknowledges, a delete that leaves generation one of the chunk live on the first
disk, and a move that finds a leftover in the data stream of a small chunk.
-/
import Nufs.Datanode.Session
import Nufs.Proofs.Datanode.V2Store
import Nufs.Lib.Guarded

namespace Nufs.Datanode

open Nufs.Storage SegmentStore Function

namespace V2Store

variable {v v' : V2Store} {env : Env} {m : ChunkID → Option (List UInt8)} {c : ChunkID}

/-- **The invariant.**  The store holds the payloads `m`. -/
structure Holds (v : V2Store) (m : ChunkID → Option (List UInt8)) : Prop where
  located : v.Located
  opened : ∀ p, (v.stores p).closed = false
  known : ∀ c loc, v.locOf.lookup c = some loc →
    ∃ data, m c = some data ∧ (v.stores loc.place).Live (c, loc.gen) data
  unknown : ∀ c, v.locOf.lookup c = none → m c = none ∧ (v.stores (false, 0)).isLive (c, 1) = false

/-- What a chunk map says a read returns. -/
def expected (m : ChunkID → Option (List UInt8)) (c : ChunkID) : Except Err (List UInt8 × UInt32) :=
  match m c with
  | some data => .ok (data, crc32c data)
  | none => .error .extentNotFound

theorem Holds.read (h : v.Holds m) (c : ChunkID) : v.read c = expected m c := by
  rw [read_eq h.located, expected]
  cases hloc : v.locOf.lookup c with
  | none =>
    obtain ⟨hm, hlive⟩ := h.unknown c hloc
    rw [loc_of_unknown hloc, hm]
    exact read_not_live (h.opened _) hlive
  | some loc =>
    obtain ⟨data, hm, hlive⟩ := h.known c loc hloc
    rw [loc_of_lookup h.located hloc, hm]
    exact read_live (h.opened _) hlive

theorem isLive_congr {s s' : SegmentStore} {k : Key}
    (h : s'.extents.lookup k = s.extents.lookup k) : s'.isLive k = s.isLive k := by
  unfold SegmentStore.isLive
  rw [h]

theorem Touches.isLive (h : Touches v v' c) {c' : ChunkID} (hc : c' ≠ c) (p : Place)
    (g : Generation) : (v'.stores p).isLive (c', g) = (v.stores p).isLive (c', g) :=
  isLive_congr ((h.others c' hc).stores p g)

theorem Holds.unchanged (h : v.Holds m) (hun : Unchanged v v') : v'.Holds m := by
  refine ⟨?_, ?_, ?_, ?_⟩
  · intro c loc hloc
    rw [hun.locOf_eq] at hloc
    exact (hun.has _).mpr (h.located c loc hloc)
  · rw [hun.stores_eq]
    exact h.opened
  · rw [hun.stores_eq, hun.locOf_eq]
    exact h.known
  · rw [hun.stores_eq, hun.locOf_eq]
    exact h.unknown

/-- A call that touches one chunk, and locates or forgets it. -/
theorem Holds.touches (h : v.Holds m) (htouches : Touches v v' c) {data : Option (List UInt8)}
    (hknown : ∀ loc, v'.locOf.lookup c = some loc →
      v.Has loc.place ∧ ∃ d, data = some d ∧ (v'.stores loc.place).Live (c, loc.gen) d)
    (hunknown : v'.locOf.lookup c = none →
      data = none ∧ (v'.stores (false, 0)).isLive (c, 1) = false) :
    v'.Holds (Function.update m c data) := by
  refine ⟨?_, htouches.opened h.opened, ?_, ?_⟩
  · intro c' loc hloc
    rw [htouches.has]
    by_cases hc : c' = c
    · subst hc
      exact (hknown loc hloc).1
    · rw [(htouches.others c' hc).locOf] at hloc
      exact h.located c' loc hloc
  · intro c' loc hloc
    by_cases hc : c' = c
    · subst hc
      rw [update_self]
      exact (hknown loc hloc).2
    · rw [(htouches.others c' hc).locOf] at hloc
      obtain ⟨d, hm, hlive⟩ := h.known c' loc hloc
      rw [update_of_ne hc]
      exact ⟨d, hm, ((htouches.others c' hc).stores _ _).trans hlive⟩
  · intro c' hloc
    by_cases hc : c' = c
    · subst hc
      rw [update_self]
      exact hunknown hloc
    · rw [(htouches.others c' hc).locOf] at hloc
      obtain ⟨hm, hlive⟩ := h.unknown c' hloc
      rw [update_of_ne hc, htouches.isLive hc]
      exact ⟨hm, hlive⟩

/-- What holds of the store after a call that succeeds, and after one that fails. -/
def After {α : Type} (r : Except Err α × V2Store) (ok error : V2Store → Prop) : Prop :=
  match r with
  | (.ok _, v) => ok v
  | (.error _, v) => error v

/-! ### Writes -/

/-- The store a write goes to does not acknowledge it for what it holds already. -/
def ClearWrite (v : V2Store) (c : ChunkID) (gen : Generation) (data : List UInt8) : Prop :=
  (v.stores (v.route c gen data).place).Accepts (c, gen) data
  deriving Decidable

theorem Holds.writeGen (h : v.Holds m) (env : Env) {gen : Generation} {data : List UInt8}
    (hclear : v.ClearWrite c gen data) :
    After (writeGen env v c gen data) (Holds · (Function.update m c (some data))) (Holds · m) := by
  rcases writeGen_cases env h.located c gen data with
    ⟨e, v', hcall, hun⟩ | ⟨s, v', hcall, hwrite, hleaves⟩
  · rw [hcall]
    exact h.unchanged hun
  rw [hcall]
  refine h.touches (touches_write hwrite hleaves) ?_ (by simp [hleaves.locOf_eq])
  intro loc hloc
  rw [hleaves.locOf_eq, AList.lookup_insert, Option.some.injEq] at hloc
  subst hloc
  refine ⟨has_route h.located c gen data, data, rfl, ?_⟩
  rw [hleaves.stores_eq, storesAfterWrite_route, gen_route]
  exact live_of_write hwrite hclear

/-! ### Deletes -/

/-- No other copy of the chunk is live where an unknown chunk is looked for. -/
def ClearDelete (v : V2Store) (c : ChunkID) : Prop :=
  v.loc c = ⟨0, 1, false⟩ ∨ (v.stores (false, 0)).isLive (c, 1) = false
  deriving Decidable

/-- After the delete nothing is live where an unknown chunk is looked for. -/
theorem ClearDelete.isLive (h : v.ClearDelete c) {s : SegmentStore}
    (hdelete : (v.stores (v.loc c).place).delete (c, (v.loc c).gen) = .ok s) :
    (Function.update v.stores (v.loc c).place s (false, 0)).isLive (c, 1) = false := by
  rcases h with hloc | hnone
  · have hdead := isLive_of_delete hdelete
    rw [hloc] at hdead ⊢
    rw [ChunkLoc.place, update_self]
    exact hdead
  rw [update_apply]
  split_ifs with hp
  · rw [Bool.eq_false_iff]
    intro hlive
    have hbefore := isLive_of_isLive_delete hdelete hlive
    rw [← hp, hnone] at hbefore
    simp at hbefore
  · exact hnone

theorem Holds.delete (h : v.Holds m) (hclear : v.ClearDelete c) :
    After (V2Store.delete v c) (Holds · (Function.update m c none)) (Holds · m) := by
  rcases delete_cases h.located c with ⟨e, v', hcall, hun⟩ | ⟨s, v', hcall, hdelete, hleaves⟩
  · rw [hcall]
    exact h.unchanged hun
  · rw [hcall]
    refine h.touches (touches_delete hdelete hleaves) (by simp [hleaves.locOf_eq])
      fun _ => ⟨rfl, ?_⟩
    rw [hleaves.stores_eq]
    exact hclear.isLive hdelete

/-! ### Moves -/

/--
A move finds the chunk itself and puts it where nothing else acknowledges it: no
leftover of a small chunk is live in the data stream of its disk, and the target does
not acknowledge the payload for what it holds already.
-/
def ClearMove (v : V2Store) (c : ChunkID) (dst : Nat) : Prop :=
  ∀ loc, v.locOf.lookup c = some loc →
    (loc.small = true → (v.stores (false, loc.disk)).isLive (c, loc.gen) = false) ∧
    (loc.small = false → ∀ e, (v.stores loc.place).extents.lookup (c, loc.gen) = some e →
      (v.stores (false, dst)).Accepts (c, loc.gen) e.data)
  deriving Decidable

theorem Holds.rebalanceOne (h : v.Holds m) (env : Env) {fromDisk toDisk : Int}
    (hclear : v.ClearMove c toDisk.toNat) (remove : Bool) :
    (rebalanceOne env v c fromDisk toDisk remove).2.Holds m := by
  rcases rebalanceOne_cases env v c fromDisk toDisk remove with
    ⟨e, v', hcall, hun⟩ |
      ⟨loc, data, s, v', hcall, hne, -, hto, hloc, hdisk, hlive, hwrite, hleaves⟩
  · rw [hcall]
    exact h.unchanged hun
  rw [hcall]
  obtain ⟨hsmall, haccepts⟩ := hclear loc hloc
  -- What was read from the data stream is the chunk itself.
  have hdata : loc.small = false := by
    rw [← Bool.not_eq_true]
    intro htrue
    have := hsmall htrue
    rw [hdisk, hlive.isLive] at this
    simp at this
  obtain ⟨d, hm, hd⟩ := h.known c loc hloc
  have hplace : loc.place = (false, fromDisk.toNat) := by rw [ChunkLoc.place, hdata, hdisk]
  have heq : d = data := by
    rw [hplace] at hd
    have := hd.symm.trans hlive
    simpa using this
  subst heq
  have hsame : Function.update m c (some d) = m := by
    rw [← hm, update_eq_self]
  rw [← hsame]
  refine h.touches (touches_move hwrite hleaves) ?_ (by simp [hleaves.locOf_eq])
  intro loc' hloc'
  rw [hleaves.locOf_eq, AList.lookup_insert, Option.some.injEq] at hloc'
  subst hloc'
  refine ⟨hto, d, rfl, ?_⟩
  rw [hleaves.stores_eq, ChunkLoc.place, storesAfterMove_target hne]
  exact live_of_write hwrite (haccepts hdata _ hd)

theorem ClearMove.congr {dst : Nat} (h : v.ClearMove c dst) (hagree : AgreesOn v v' c) :
    v'.ClearMove c dst := by
  intro loc hloc
  rw [hagree.locOf] at hloc
  obtain ⟨hsmall, haccepts⟩ := h loc hloc
  refine ⟨fun htrue => ?_, fun hfalse e he => ?_⟩
  · unfold SegmentStore.isLive at hsmall ⊢
    rw [hagree.stores]
    exact hsmall htrue
  · rw [hagree.stores] at he
    unfold SegmentStore.Accepts at haccepts ⊢
    rw [hagree.stores]
    exact haccepts hfalse e he

/-- What a migration may move: the chunks listed on the disk, to any other disk. -/
def ClearMigrate (v : V2Store) (src : Nat) : Prop :=
  ∀ x ∈ scan (v.stores (false, src)), ∀ dst ∈ List.range v.disks.length, dst ≠ src →
    v.ClearMove x.extentID dst
  deriving Decidable

theorem Holds.migrateDisk (h : v.Holds m) (env : Env) {srcIdx : Int}
    (hclear : v.ClearMigrate srcIdx.toNat) : (migrateDisk env v srcIdx).2.Holds m := by
  have hmove : ∀ (v : V2Store) c (dst : Nat), v.Holds m → v.ClearMove c dst →
      (V2Store.rebalanceOne env v c srcIdx.toNat dst true).2.Holds m :=
    fun v c dst h hclear => h.rebalanceOne env hclear true
  exact migrateDisk_invariant env hmove (fun _ _ _ _ hclear hagree _ => hclear.congr hagree)
    h hclear

end V2Store

/-! ### Runs -/

namespace Session

/-- **The condition on a call**, in the state it finds. -/
def KeepsMap (s : Session) : Env × Call → Prop
  | (_, .write c data) => s.store.ClearWrite c (s.store.nextLoc c).2 data
  | (_, .writeGen c gen data) => s.store.ClearWrite c gen data
  | (_, .delete c) => s.store.ClearDelete c
  | (_, .rebalanceOne c _ toDisk) => s.store.ClearMove c toDisk.toNat
  | (_, .migrateDisk srcIdx) => s.store.ClearMigrate srcIdx.toNat
  | (_, .removeDisk _) => True

instance (s : Session) (a : Env × Call) : Decidable (s.KeepsMap a) :=
  match a with
  | (_, .write _ _) | (_, .writeGen _ _ _) => inferInstanceAs (Decidable (s.store.ClearWrite ..))
  | (_, .delete c) => inferInstanceAs (Decidable (s.store.ClearDelete c))
  | (_, .rebalanceOne _ _ _) => inferInstanceAs (Decidable (s.store.ClearMove ..))
  | (_, .migrateDisk _) => inferInstanceAs (Decidable (s.store.ClearMigrate ..))
  | (_, .removeDisk _) => .isTrue trivial

theorem lastWritten_acked (c : ChunkID) (gen : Generation) (data : List UInt8) (log : List Event) :
    lastWritten (.acked c gen data :: log) = Function.update (lastWritten log) c (some data) := by
  funext k
  rw [lastWritten, update_apply]
  simp only [eq_comm]

theorem lastWritten_deleted (c : ChunkID) (gen : Option Generation) (log : List Event) :
    lastWritten (.deleted c gen :: log) = Function.update (lastWritten log) c none := by
  funext k
  rw [lastWritten, update_apply]
  simp only [eq_comm]

theorem store_note {α : Type} (s : Session) (event : Event) (r : Except Err α × V2Store) :
    (s.note event r).store = r.2 := by
  obtain ⟨result, v⟩ := r
  cases result <;> rfl

/-- What is noted is what the call did. -/
theorem after_note {α : Type} {s : Session} {event : Event} {r : Except Err α × V2Store}
    {Q : V2Store → List Event → Prop} (h : V2Store.After r (Q · (event :: s.log)) (Q · s.log)) :
    Q (s.note event r).store (s.note event r).log := by
  obtain ⟨result, v⟩ := r
  cases result with
  | ok _ | error e => exact h

/-- The invariant rule for calls. -/
theorem run_invariant {guard : Session → Env × Call → Prop} {P : Session → Prop} {s s' : Session}
    (hcall : ∀ s env a, P s → guard s (env, a) → P (s.call env a)) (h : P s)
    {calls : List (Env × Call)} (hmeets : Guarded.Meets step guard calls s)
    (hrun : Guarded.run step calls s = some s') : P s' := by
  refine Guarded.run_invariant (fun s a s' hinv hkeeps hstep => ?_) h hmeets hrun
  cases hstep
  exact hcall s a.1 a.2 hinv hkeeps

/-- A call moves the store as it moves the chunk map. -/
theorem holds_call {s : Session} (h : s.store.Holds (lastWritten s.log)) (env : Env) (a : Call)
    (hkeeps : s.KeepsMap (env, a)) :
    (s.call env a).store.Holds (lastWritten (s.call env a).log) := by
  cases a with
  | write c data =>
    simp only [call, V2Store.write_eq_writeGen]
    apply after_note (Q := fun v log => v.Holds (lastWritten log))
    rw [lastWritten_acked]
    exact h.writeGen env hkeeps
  | writeGen c gen data =>
    apply after_note (Q := fun v log => v.Holds (lastWritten log))
    rw [lastWritten_acked]
    exact h.writeGen env hkeeps
  | delete c =>
    apply after_note (Q := fun v log => v.Holds (lastWritten log))
    rw [lastWritten_deleted]
    exact h.delete hkeeps
  | rebalanceOne c fromDisk toDisk => exact h.rebalanceOne env hkeeps false
  | migrateDisk srcIdx => exact h.migrateDisk env hkeeps
  | removeDisk idx => exact h.unchanged (V2Store.unchanged_removeDisk s.store idx)

/-- Every store of a new datanode is empty. -/
theorem stores_new (dirs : List String) (h : 0 < dirs.length) (small : Bool) (p : Place) :
    (new dirs h small).store.stores p = .empty := by
  obtain ⟨small', i⟩ := p
  have hstream : ∀ b ∈ (new dirs h small).store.streams small', b.store = .empty := by
    intro b hb
    cases small' <;> cases small <;>
      simp only [V2Store.streams, new, Bool.false_eq_true, if_true, if_false, List.mem_map,
        List.not_mem_nil] at hb <;> obtain ⟨dir, -, rfl⟩ := hb <;> rfl
  unfold V2Store.stores V2Store.backend
  rw [List.getD_eq_getElem?_getD]
  cases hb : ((new dirs h small).store.streams small')[i]? with
  | none => rfl
  | some b => exact hstream b (List.mem_of_getElem? hb)

theorem holds_new (dirs : List String) (h : 0 < dirs.length) (small : Bool) :
    (new dirs h small).store.Holds (lastWritten []) := by
  refine ⟨by simp [V2Store.Located, new], fun p => ?_, by simp [new], fun c _ => ⟨rfl, ?_⟩⟩
  · rw [stores_new]
    rfl
  · rw [stores_new]
    rfl

/--
**The datanode store is a chunk map.**  After every sequence of calls that meet the
condition, on any number of disks and with or without small streams, a read returns
the payload of the last acknowledged write, and finds nothing if there is none or the
chunk was deleted since.
-/
theorem read_returns_last_written (dirs : List String) (h : 0 < dirs.length) (small : Bool)
    (calls : List (Env × Call)) (hmeets : Guarded.Meets step KeepsMap calls (new dirs h small))
    (s : Session) (hrun : Guarded.run step calls (new dirs h small) = some s) (c : ChunkID) :
    s.store.read c =
      match lastWritten s.log c with
      | some data => .ok (data, crc32c data)
      | none => .error .extentNotFound := by
  have hholds := run_invariant (P := fun s => s.store.Holds (lastWritten s.log))
    (fun _ env a hinv => holds_call hinv env a) (holds_new dirs h small) hmeets hrun
  exact hholds.read c

/-- Nothing fails, and listings are in their own order. -/
def calm : Env := ⟨fun _ => false, fun _ => false, id, fun _ => List.Perm.refl _⟩

/-- A chunk is overwritten and moved, another one deleted, and a disk drained. -/
def moving : List (Env × Call) :=
  [(calm, .write 7 [5]), (calm, .write 8 [1]), (calm, .write 7 [6]), (calm, .rebalanceOne 7 0 1),
    (calm, .delete 8), (calm, .migrateDisk 1)]

/-- A chunk that is overwritten and moved, with a delete of another one: reads see the map. -/
theorem moved_chunk_read_back :
    ∃ s, Guarded.run step moving (new ["a", "b"] (by decide) false) = some s ∧
      s.store.read 7 = .ok ([6], crc32c [6]) ∧ s.store.read 8 = .error .extentNotFound := by
  have hmeets : Guarded.Meets step KeepsMap moving (new ["a", "b"] (by decide) false) := by
    decide +kernel
  have hend : (Guarded.run step moving (new ["a", "b"] (by decide) false)).map (fun s =>
      (lastWritten s.log 7, lastWritten s.log 8)) = some (some [6], none) := by decide +kernel
  obtain ⟨s, hs, heq⟩ := Option.map_eq_some_iff.mp hend
  obtain ⟨h7, h8⟩ := Prod.mk.inj heq
  have hread7 := read_returns_last_written _ _ _ _ hmeets s hs 7
  have hread8 := read_returns_last_written _ _ _ _ hmeets s hs 8
  rw [h7] at hread7
  rw [h8] at hread8
  exact ⟨s, hs, hread7, hread8⟩

/-- A chunk that is written twice and deleted is read back with its first payload. -/
theorem deleted_chunk_read_back :
    (Guarded.run step [(calm, .write 7 [5]), (calm, .write 7 [6]), (calm, .delete 7)]
      (new ["a"] (by decide) false)).map (fun s => (s.log, lastWritten s.log 7, s.store.read 7)) =
      some ([.deleted 7 (some 2), .acked 7 2 [6], .acked 7 1 [5]], none,
        .ok ([5], crc32c [5])) := by
  decide +kernel

end Session

end Nufs.Datanode
