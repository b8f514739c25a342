/-
A log of the metadata state machine that is applied once more.

After a restart the rows of the store are there already, and raft applies its log again
from the last snapshot, or from the beginning.  Entries that are judged as they were the
first time lead back to where they led.  An entry that was refused and is now accepted,
or the other way round, does so only if the rows it writes are there already, or are
written again.
-/
import Nufs.Metadata.Fsm
import Nufs.Lib.Replay

namespace Nufs.Metadata

variable {V : Type}

/-! ### What changes write -/

/-- What a change makes of a row: nothing, if it leaves it alone. -/
def Change.patch (k : Key) : Change V → Option (Option V)
  | op (.set key value) => if k = key then some (some value) else none
  | op (.delete key) => if k = key then some none else none
  | clearCatalog => if k.InCatalog then some none else none

/-- What changes make of a row, the last one first. -/
def patchOf (k : Key) : List (Change V) → Option (Option V)
  | [] => none
  | c :: cs => (patchOf k cs).or (c.patch k)

theorem Change.lookup_apply (rows : Rows V) (c : Change V) (k : Key) :
    (c.apply rows).lookup k = (c.patch k).getD (rows.lookup k) := by
  cases c with
  | op o =>
    cases o with
    | set key value =>
      by_cases hk : k = key
      · subst hk
        simp [apply, BatchOp.apply, patch]
      · simp [apply, BatchOp.apply, patch, hk, Finmap.lookup_insert_of_ne _ hk]
    | delete key =>
      by_cases hk : k = key
      · subst hk
        simp [apply, BatchOp.apply, patch]
      · simp [apply, BatchOp.apply, patch, hk, Finmap.lookup_erase_ne hk]
  | clearCatalog =>
    by_cases hk : k.InCatalog
    · simp [apply, patch, hk, Finmap.lookup_filterKeys]
    · simp [apply, patch, hk, Finmap.lookup_filterKeys]

theorem lookup_foldl_apply (cs : List (Change V)) (rows : Rows V) (k : Key) :
    (cs.foldl Change.apply rows).lookup k = (patchOf k cs).getD (rows.lookup k) := by
  induction cs generalizing rows with
  | nil => rfl
  | cons c cs ih =>
    rw [List.foldl_cons, ih, Change.lookup_apply, patchOf]
    cases patchOf k cs with
    | none | some v => rfl

theorem patchOf_ops (k : Key) (ops : List (BatchOp V)) (h : ∀ op ∈ ops, op.key ≠ k) :
    patchOf k (ops.map Change.op) = none := by
  induction ops with
  | nil => rfl
  | cons op ops ih =>
    have htail := ih fun op' hop' => h op' (.tail _ hop')
    have hne : k ≠ op.key := (h op (.head _)).symm
    rw [List.map_cons, patchOf, htail, Option.none_or]
    cases op with
    | set key value | delete key => exact if_neg hne

namespace Fsm

variable [DecidableEq V] (codec : Codec V)

/-! ### Entries that are judged twice -/

/-- The entry passes the checks. -/
def Accepts (rows : Rows V) (l : RaftLog V) : Prop := (judge codec rows l).isOk

instance Accepts.decidable (rows : Rows V) (l : RaftLog V) : Decidable (Accepts codec rows l) :=
  inferInstanceAs (Decidable ((judge codec rows l).isOk = true))

/-- What an entry makes of a row. -/
def writes (l : RaftLog V) (k : Key) : Option (Option V) := patchOf k (changes l)

/--
An entry that is accepted from only one of two stores finds each row it writes as it writes
it in the other, or the row is written again later.
-/
def Settled (log : List (RaftLog V)) (rows rows' : Rows V) : Prop :=
  ∀ k, Replay.SettledAt (fun rows k => rows.lookup k) (fun rows l => (apply codec rows l).2)
    (Accepts codec) writes k log rows rows'

variable {rows : Rows V} {l : RaftLog V}

theorem apply_of_accepts (h : Accepts codec rows l) :
    (apply codec rows l).2 = (changes l).foldl Change.apply rows := by
  unfold Accepts at h
  unfold apply
  cases hj : judge codec rows l with
  | error e =>
    rw [hj] at h
    exact absurd h Bool.false_ne_true
  | ok _ => rfl

theorem apply_of_refused (h : ¬ Accepts codec rows l) : (apply codec rows l).2 = rows := by
  unfold Accepts at h
  unfold apply
  cases hj : judge codec rows l with
  | error e => rfl
  | ok _ =>
    rw [hj] at h
    exact absurd rfl h

theorem overwrites :
    Replay.Overwrites (fun rows k => rows.lookup k) (fun rows l => (apply codec rows l).2)
      (Accepts codec) writes where
  accepted := by
    intro rows l k h
    show (apply codec rows l).2.lookup k = (writes l k).getD (rows.lookup k)
    rw [apply_of_accepts codec h, lookup_foldl_apply]
    rfl
  refused := by
    intro rows l k h
    show (apply codec rows l).2.lookup k = rows.lookup k
    rw [apply_of_refused codec h]

/-- A row that an entry does not write stays as it is. -/
theorem lookup_apply_of_not_writes {k : Key} (h : writes l k = none) :
    (apply codec rows l).2.lookup k = rows.lookup k := by
  by_cases ha : Accepts codec rows l
  · rw [apply_of_accepts codec ha, lookup_foldl_apply]
    exact congrArg (fun w => w.getD (rows.lookup k)) h
  · rw [apply_of_refused codec ha]

theorem applyLog_append (p r : List (RaftLog V)) (rows : Rows V) :
    applyLog codec (p ++ r) rows = applyLog codec r (applyLog codec p rows) :=
  Replay.applyAll_append p r rows

/--
**When a log can be applied again.**  A restart that applies the first entries of a log once
more, and then the rest, ends in the rows the log led to exactly if the log is settled.
-/
theorem applyLog_again_iff (first rest : List (RaftLog V)) :
    applyLog codec rest (applyLog codec first (applyLog codec (first ++ rest) ∅)) =
        applyLog codec (first ++ rest) ∅ ↔
      Settled codec (first ++ rest) ∅ (applyLog codec (first ++ rest) ∅) := by
  rw [← applyLog_append]
  constructor
  · intro h k
    refine (Replay.applyAll_twice_iff (overwrites codec) (first ++ rest) ∅ k).mp ?_
    exact congrArg (Finmap.lookup k) h
  · intro h
    refine Finmap.ext_lookup fun k => ?_
    exact (Replay.applyAll_twice_iff (overwrites codec) (first ++ rest) ∅ k).mpr (h k)

end Fsm

/-! ### Logs on stored bytes -/

/-- Values as they are stored; none of them is an inode of the checks. -/
def plainCodec : Codec (List UInt8) := ⟨fun _ => none, fun _ => none, fun _ => true⟩

/-- The batch of a create: the name and the inode must be absent. -/
def rawCreate (name : List Char) (id : InodeID) (value : List UInt8) : RaftLog (List UInt8) :=
  ⟨1, some (.conditional ⟨1, 0, [⟨.ns 1 name, none⟩, ⟨.inode id, none⟩],
    [.set (.inode id) value, .set (.ns 1 name) value], []⟩)⟩

/-- The batch of a rename. -/
def rawRename (name newName : List Char) (value : List UInt8) : RaftLog (List UInt8) :=
  ⟨1, some (.batch [.set (.ns 1 newName) value, .delete (.ns 1 name)])⟩

/-- Two creates of one name race, then the file is moved. -/
def racedLog : List (RaftLog (List UInt8)) :=
  [rawCreate ['f'] 2 [2], rawCreate ['f'] 3 [3], rawRename ['f'] ['g'] [2]]

/--
The second create loses, for the name is taken.  Applied again after the move it finds the
name free, and leaves an inode that no replica without the restart has.
-/
theorem applyLog_again_racedLog :
    Fsm.applyLog plainCodec racedLog (Fsm.applyLog plainCodec racedLog ∅) ≠
        Fsm.applyLog plainCodec racedLog ∅ ∧
      (Fsm.applyLog plainCodec racedLog ∅).lookup (.inode 3) = none ∧
      (Fsm.applyLog plainCodec racedLog
        (Fsm.applyLog plainCodec racedLog ∅)).lookup (.inode 3) = some [3] := by
  decide

end Nufs.Metadata
