/-
Sequences of file operations that may fail.

A directory holds files by number.  A program's work on them is a list of
operations; a fault names the operation that fails and how many bytes of it were
done before it did.  What a failed run leaves is the effect of the operations
before the failing one and of the bytes of it that were done, which is also what a
crash at that point finds.
-/
import Nufs.Lib.ByteFile
import Mathlib.Data.List.AList

namespace ByteFile

open List

/-- A directory: files by number. -/
abbrev Dir := AList (fun _ : Nat => File)

/-- One operation on a directory. -/
inductive FileOp
  /-- Open a file, creating it if it is not there. -/
  | create (id : Nat)
  | write (id off : Nat) (bytes : List UInt8)
  | sync (id : Nat)
  /-- Nothing is done here, but a failure may be reported. -/
  | stage
  deriving DecidableEq, Repr

/-- The failing operation of a list, by its position, and the bytes of it that are done. -/
abbrev Fault := Option (Nat × Nat)

/-- Change a file, if it is there. -/
def Dir.modify (d : Dir) (id : Nat) (f : File → File) : Dir :=
  match d.lookup id with
  | none => d
  | some file => d.insert id (f file)

namespace FileOp

/-- The effect of an operation that succeeds. -/
def run : FileOp → Dir → Dir
  | create id, d => if (d.lookup id).isSome then d else d.insert id File.empty
  | write id off bs, d => Dir.modify d id fun f => f.writeAt off bs
  | sync id, d => Dir.modify d id File.sync
  | stage, d => d

/-- The effect of an operation that fails after `j` bytes. -/
def runPartly (j : Nat) : FileOp → Dir → Dir
  | write id off bs, d => Dir.modify d id fun f => f.writeAt off (bs.take j)
  | _, d => d

end FileOp

/-- Run operations in order: did all succeed, the fault that is still to come, the directory. -/
def runOps : List FileOp → Fault → Dir → Bool × Fault × Dir
  | [], fault, d => (true, fault, d)
  | op :: _, some (0, j), d => (false, none, op.runPartly j d)
  | op :: ops, some (n + 1, j), d => runOps ops (some (n, j)) (op.run d)
  | op :: ops, none, d => runOps ops none (op.run d)

/-- The effect of operations that all succeed. -/
def runAll (ops : List FileOp) (d : Dir) : Dir :=
  ops.foldl (fun d op => op.run d) d

theorem runOps_none (ops : List FileOp) (d : Dir) :
    runOps ops none d = (true, none, runAll ops d) := by
  induction ops generalizing d with
  | nil => rfl
  | cons op ops ih => exact ih (op.run d)

@[simp] theorem Dir.lookup_modify (d : Dir) (id : Nat) (f : File → File) :
    (d.modify id f).lookup id = (d.lookup id).map f := by
  unfold Dir.modify
  cases h : d.lookup id with
  | none => simp [h]
  | some file => simp

variable {id : Nat} {d d' : Dir} {f : File} {fault : Fault}

theorem Dir.lookup_modify_ne (d : Dir) {id' : Nat} (f : File → File) (h : id' ≠ id) :
    (d.modify id f).lookup id' = d.lookup id' := by
  unfold Dir.modify
  cases d.lookup id with
  | none => rfl
  | some file => exact AList.lookup_insert_ne h

/-! ### Crashes -/

/-- A file after a crash: its first `n` bytes, but never fewer than were durable. -/
def File.cut (f : File) (n : Nat) : File :=
  let kept := f.bytes.take (max n f.synced.length)
  ⟨kept, kept⟩

/-- A directory after a crash, where `keep` says how much of each file is found. -/
def Dir.crash (d : Dir) (keep : Nat → Nat) : Dir where
  entries := d.entries.map fun e => ⟨e.1, e.2.cut (keep e.1)⟩
  nodupKeys := by
    have hkeys : (d.entries.map fun e => (⟨e.1, e.2.cut (keep e.1)⟩ : (_ : Nat) × File)).keys =
        d.entries.keys := by
      simp [List.keys, Function.comp_def]
    unfold List.NodupKeys
    rw [hkeys]
    exact d.nodupKeys

theorem Dir.lookup_crash (d : Dir) (keep : Nat → Nat) (n : Nat) :
    (d.crash keep).lookup n = (d.lookup n).map fun f => f.cut (keep n) := by
  have h := dlookup_map₂ (l := d.entries) (f := fun id (f : File) => f.cut (keep id)) n
  exact h

/-! ### Appending -/

/-- The operations write bytes one behind the other, from an offset of a file on. -/
inductive Writes (id : Nat) : Nat → List FileOp → List UInt8 → Prop
  | nil (off : Nat) : Writes id off [] []
  | write {off : Nat} {ops : List FileOp} {t : List UInt8} (bs : List UInt8)
      (h : Writes id (off + bs.length) ops t) : Writes id off (.write id off bs :: ops) (bs ++ t)
  | stage {off : Nat} {ops : List FileOp} {t : List UInt8} (h : Writes id off ops t) :
      Writes id off (.stage :: ops) t

theorem Writes.append {id off : Nat} {ops ops' : List FileOp} {t t' : List UInt8}
    (h : Writes id off ops t) (h' : Writes id (off + t.length) ops' t') :
    Writes id off (ops ++ ops') (t ++ t') := by
  induction h with
  | nil off => exact h'
  | write bs _ ih =>
    rw [append_assoc]
    refine .write bs (ih ?_)
    rwa [length_append, ← Nat.add_assoc] at h'
  | stage _ ih => exact .stage (ih h')

/-- `d'` is `d` with `t` written behind what file `id` held; nothing of it is durable yet. -/
structure Appended (id : Nat) (d d' : Dir) (f : File) (t : List UInt8) : Prop where
  file : d'.lookup id = some ⟨f.bytes ++ t, f.synced⟩
  others : ∀ id' ≠ id, d'.lookup id' = d.lookup id'

theorem Appended.refl (h : d.lookup id = some f) : Appended id d d f [] :=
  ⟨by simpa using h, fun _ _ => rfl⟩

/-- A write at the end of a file, or the first bytes of one. -/
theorem appended_write (h : d.lookup id = some f) (bs : List UInt8) :
    Appended id d (Dir.modify d id fun g => g.writeAt f.bytes.length bs) f bs where
  file := by
    rw [Dir.lookup_modify, h, Option.map_some]
    exact congrArg some (congrArg (File.mk · f.synced) (f.writeAt_bytes_end bs))
  others := fun _ hne => Dir.lookup_modify_ne d _ hne

theorem Appended.trans {d'' : Dir} {t u : List UInt8} (h : Appended id d d' f t)
    (h' : Appended id d' d'' ⟨f.bytes ++ t, f.synced⟩ u) :
    Appended id d d'' f (t ++ u) where
  file := by simpa [append_assoc] using h'.file
  others := fun id' hne => (h'.others id' hne).trans (h.others id' hne)

theorem runOps_append (ops ops' : List FileOp) (fault : Fault) (d : Dir) :
    runOps (ops ++ ops') fault d =
      match runOps ops fault d with
      | (false, fault, d) => (false, fault, d)
      | (true, fault, d) => runOps ops' fault d := by
  induction ops generalizing fault d with
  | nil => rfl
  | cons op ops ih =>
    rcases fault with - | ⟨n, j⟩
    · exact ih none (op.run d)
    · cases n with
      | zero => rfl
      | succ n => exact ih (some (n, j)) (op.run d)

/-- The fault that is left after all of `n` operations succeeded. -/
def Fault.after (n : Nat) : Fault → Fault
  | none => none
  | some (k, j) => some (k - n, j)

/-- Does the fault come only behind the first `n` operations? -/
def Fault.spares (n : Nat) : Fault → Bool
  | none => true
  | some (k, _) => n ≤ k

variable {m n : Nat} {ops : List FileOp} {fault' : Fault}

theorem Fault.spares_mono (hle : m ≤ n) (h : fault.spares n = true) : fault.spares m = true := by
  rcases fault with - | ⟨k, j⟩
  · rfl
  · simp only [Fault.spares, decide_eq_true_eq] at h ⊢
    omega

theorem Fault.ne_none (h : fault.spares n = false) : fault ≠ none := by
  rintro rfl
  simp [Fault.spares] at h

theorem Fault.spares_after (h : fault.spares m = true) :
    (fault.after m).spares n = fault.spares (m + n) := by
  rcases fault with - | ⟨k, j⟩
  · rfl
  · simp only [Fault.spares, Fault.after, decide_eq_true_eq] at h ⊢
    congr 1
    exact propext (by omega)

theorem Fault.after_after (m n : Nat) (fault : Fault) :
    (fault.after m).after n = fault.after (m + n) := by
  rcases fault with - | ⟨k, j⟩
  · rfl
  · simp [Fault.after, Nat.sub_sub]

/-- A run succeeds exactly if the fault spares it. -/
theorem runOps_result {ok : Bool} (h : runOps ops fault d = (ok, fault', d')) :
    ok = fault.spares ops.length ∧ (ok = true → fault' = fault.after ops.length) := by
  induction ops generalizing fault d with
  | nil => rcases fault with - | ⟨n, j⟩ <;> simp_all [runOps, Fault.spares, Fault.after]
  | cons op ops ih =>
    rcases fault with - | ⟨n, j⟩
    · exact ih h
    · cases n with
      | zero => simp_all [runOps, Fault.spares]
      | succ n => simpa [Fault.spares, Fault.after] using ih h

/-- The first operation fails, or it is done and the fault is still to come. -/
theorem runOps_cons (op : FileOp) (ops : List FileOp) (fault : Fault) (d : Dir) :
    (∃ j, fault = some (0, j) ∧ runOps (op :: ops) fault d = (false, none, op.runPartly j d)) ∨
      ∃ fault', runOps (op :: ops) fault d = runOps ops fault' (op.run d) := by
  rcases fault with - | ⟨n, j⟩
  · exact .inr ⟨none, rfl⟩
  cases n with
  | zero => exact .inl ⟨j, rfl, rfl⟩
  | succ n => exact .inr ⟨some (n, j), rfl⟩

/-- Appending with a fault anywhere leaves a first part of what was to be appended. -/
theorem runOps_writes {off : Nat} {whole : List UInt8} (hops : Writes id off ops whole)
    (hoff : off = f.bytes.length) (fault : Fault) (h : d.lookup id = some f) :
    ∃ t, t <+: whole ∧ Appended id d (runOps ops fault d).2.2 f t ∧
      ((runOps ops fault d).1 = true → t = whole) := by
  induction hops generalizing fault d f with
  | nil off =>
    refine ⟨[], nil_prefix, ?_, fun _ => rfl⟩
    rcases fault with - | ⟨n, j⟩ <;> exact .refl h
  | @write off ops u bs _ ih =>
    subst hoff
    rcases runOps_cons (.write id f.bytes.length bs) ops fault d with ⟨j, -, hrun⟩ | ⟨fault', hrun⟩
    · rw [hrun]
      exact ⟨bs.take j, (List.take_prefix j bs).trans (prefix_append bs _),
        appended_write h (bs.take j), by simp⟩
    · rw [hrun]
      have hwrite := appended_write h bs
      obtain ⟨t, hpre, happ, hall⟩ := ih length_append.symm fault' hwrite.file
      exact ⟨bs ++ t, (prefix_append_right_inj bs).mpr hpre, hwrite.trans happ,
        fun hok => congrArg (bs ++ ·) (hall hok)⟩
  | @stage off ops u _ ih =>
    rcases runOps_cons .stage ops fault d with ⟨j, -, hrun⟩ | ⟨fault', hrun⟩
    · rw [hrun]
      exact ⟨[], nil_prefix, .refl h, by simp⟩
    · rw [hrun]
      exact ih hoff fault' h

/-- Barriers change nothing a reader sees; one that is reached makes the file durable. -/
theorem runOps_barriers (hops : ∀ op ∈ ops, op = .stage ∨ op = .sync id) (fault : Fault)
    (h : d.lookup id = some f) :
    let r := runOps ops fault d
    (r.2.2.lookup id = some f ∧ (r.1 = true → .sync id ∉ ops) ∨ r.2.2.lookup id = some f.sync) ∧
      ∀ id' ≠ id, r.2.2.lookup id' = d.lookup id' := by
  induction ops generalizing fault d f with
  | nil =>
    rcases fault with - | ⟨k, j⟩ <;> exact ⟨.inl ⟨h, fun _ => not_mem_nil⟩, fun _ _ => rfl⟩
  | cons op ops ih =>
    have hrest : ∀ op ∈ ops, op = .stage ∨ op = .sync id :=
      fun op hop => hops op (mem_cons_of_mem _ hop)
    intro r
    rcases runOps_cons op ops fault d with ⟨j, -, hrun⟩ | ⟨fault', hrun⟩
    · have hr : r = (false, none, d) := by
        rcases hops op mem_cons_self with rfl | rfl <;> exact hrun
      rw [hr]
      exact ⟨.inl ⟨h, by simp⟩, fun _ _ => rfl⟩
    · have hr : r = _ := hrun
      rw [hr]
      rcases hops op mem_cons_self with rfl | rfl
      · simpa [FileOp.run] using ih hrest fault' h
      · have hsync : (Dir.modify d id File.sync).lookup id = some f.sync := by
          rw [Dir.lookup_modify, h]
          rfl
        obtain ⟨hfile, hothers⟩ := ih hrest fault' hsync
        refine ⟨.inr ?_, fun id' hne => (hothers id' hne).trans (Dir.lookup_modify_ne _ _ hne)⟩
        rcases hfile with ⟨hfile, -⟩ | hfile <;> exact hfile

end ByteFile
