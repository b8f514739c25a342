/-
What sealing a segment does to the directory.

The footer is appended and made durable, then the next segment is created and its
header written.  The header is not made durable by this: the first commit of the
new segment does it.
-/
import Nufs.Proofs.Storage.Commit

namespace Nufs.Storage

open ByteFile List

namespace Store

variable {id : Nat} {d : Dir}

/-- A write at the end of a file, with barriers behind it. -/
theorem runOps_durable {bars : List FileOp} (bs : List UInt8)
    (hbars : ∀ op ∈ bars, op = .stage ∨ op = .sync id) (hmem : .sync id ∈ bars) (fault : Fault)
    {f : File} (h : d.lookup id = some f) :
    let r := runOps (.write id f.bytes.length bs :: bars) fault d
    ∃ t file, TornAppend id d r.2.2 f bs t file ∧
      (r.1 = true → file.synced = f.bytes ++ bs ∧ t = bs) ∧
      (∀ j, fault = some (0, j) → t = bs.take j) := by
  intro r
  obtain ⟨t, file, htorn, hok, -⟩ := runOps_torn (.write bs (.nil _)) hbars fault h
  rw [append_nil] at htorn hok
  refine ⟨t, file, htorn, fun hr => ⟨(hok hr).2 hmem, (hok hr).1⟩, ?_⟩
  rintro j rfl
  have hpart : some file = some ⟨f.bytes ++ bs.take j, f.synced⟩ :=
    htorn.lookup.symm.trans (appended_write h (bs.take j)).file
  have hbytes := htorn.bytes
  rw [Option.some.inj hpart] at hbytes
  exact (append_cancel_left hbytes).symm

/-- A new file is not there yet, or holds a first part of its header, and nothing is durable. -/
theorem runOps_newFile (bs : List UInt8) (fault : Fault) (h : d.lookup id = none) :
    let r := runOps [.create id, .write id 0 bs] fault d
    (∀ id' ≠ id, r.2.2.lookup id' = d.lookup id') ∧ (r.2.2 = d ∧ r.1 = false ∨
        ∃ u, u <+: bs ∧ r.2.2.lookup id = some ⟨u, []⟩ ∧ (r.1 = true → u = bs)) := by
  intro r
  rcases runOps_cons (.create id) [.write id 0 bs] fault d with ⟨j, -, hrun⟩ | ⟨fault', hrun⟩
  · have hr : r = (false, none, d) := hrun
    rw [hr]
    exact ⟨fun _ _ => rfl, .inl ⟨rfl, rfl⟩⟩
  · have hcreate : FileOp.run (.create id) d = d.insert id File.empty := by
      simp [FileOp.run, h]
    have hr : r = runOps [.write id 0 bs] fault' (d.insert id File.empty) := by
      rw [← hcreate]
      exact hrun
    obtain ⟨u, hpre, happ, hall⟩ := runOps_writes (.write bs (.nil _)) rfl fault'
      (AList.lookup_insert (b := File.empty) d)
    rw [hr]
    refine ⟨fun id' hne => (happ.others id' hne).trans (AList.lookup_insert_ne hne),
      .inr ⟨u, ?_, happ.file, ?_⟩⟩
    · rwa [append_nil] at hpre
    · intro hok
      rw [hall hok, append_nil]

/-- The directory behind a sealed segment: the footer is durable, and the next segment is not
there yet or holds the first part `u` of its header. -/
structure SealedDir (s : Store) (files : Dir) (file : File) (footer : SegmentFooter)
    (u : Option (List UInt8)) : Prop where
  old : files.lookup s.alloc.segmentID =
    some ⟨file.bytes ++ footer.encode, file.bytes ++ footer.encode⟩
  new : files.lookup (s.nextSeg + 1) = u.map fun u => ⟨u, []⟩
  header : ∀ bs ∈ u, bs <+: (newSegmentHeader (s.nextSeg + 1) s.alloc.segmentClass).encode
  others : ∀ id, id ≠ s.alloc.segmentID → id ≠ s.nextSeg + 1 →
    files.lookup id = s.files.lookup id

/-- Where the next segment was not created, the footer is all that was written. -/
theorem SealedDir.torn {s : Store} {files : Dir} {file : File} {footer : SegmentFooter}
    (h : SealedDir s files file footer none) (hfresh : s.files.lookup (s.nextSeg + 1) = none) :
    TornAppend s.alloc.segmentID s.files files file footer.encode footer.encode
      ⟨file.bytes ++ footer.encode, file.bytes ++ footer.encode⟩ := by
  refine ⟨prefix_rfl, h.old, rfl, .inr ⟨rfl, rfl⟩, fun id hid => ?_⟩
  by_cases hnext : id = s.nextSeg + 1
  · subst hnext
    rw [h.new, hfresh]
    rfl
  · exact h.others id hid hnext

/-- Behind the next segment there is still nothing. -/
theorem SealedDir.fresh {s : Store} {files : Dir} {file : File} {footer : SegmentFooter}
    {u : Option (List UInt8)} (h : SealedDir s files file footer u)
    (hnext : s.nextSeg = s.alloc.segmentID)
    (hfresh : ∀ id, s.nextSeg < id → s.files.lookup id = none) (id : SegmentID)
    (hid : s.nextSeg + 1 < id) : files.lookup id = none := by
  have hlt : s.nextSeg < id := Nat.lt_of_succ_lt hid
  rw [h.others id (hnext ▸ Nat.ne_of_gt hlt) (Nat.ne_of_gt hid)]
  exact hfresh id hlt

/-- The store behind a successful seal. -/
def afterSeal (s : Store) (files : Dir) (now : UInt64) : Store :=
  { s with
    files, nextSeg := s.nextSeg + 1
    alloc := .new (s.nextSeg + 1) s.alloc.segmentClass s.segmentSize now }

/-- What comes of a seal whose footer is not refused. -/
inductive Seals (fault : Fault) (now : UInt64) (s : Store) (file : File) (footer : SegmentFooter) :
    Except Err Unit → Fault → Store → Prop
  | footer {fault' : Fault} {files : Dir} {t : List UInt8} {file' : File}
      (hspares : fault.spares 5 = false)
      (htorn : TornAppend s.alloc.segmentID s.files files file footer.encode t file')
      (ht : ∀ j, fault = some (0, j) → t = footer.encode.take j) :
      Seals fault now s file footer (.error .ioError) fault' { s with files }
  | header {fault' : Fault} {files : Dir} {u : Option (List UInt8)}
      (hspares : fault.spares 5 = false) (hfirst : ∀ j, fault ≠ some (0, j))
      (hdir : SealedDir s files file footer u) :
      Seals fault now s file footer (.error .ioError) fault'
        { s with files, nextSeg := s.nextSeg + 1 }
  | done {files : Dir} (hspares : fault.spares 5 = true) (hdir : SealedDir s files file footer
        (some (newSegmentHeader (s.nextSeg + 1) s.alloc.segmentClass).encode)) :
      Seals fault now s file footer (.ok ()) (fault.after 5) (s.afterSeal files now)

/-- **Sealing a segment.**  The footer is refused, or it is written in part, or it is written
and the next segment is opened in part or in full. -/
theorem sealActiveLocked_cases (fault : Fault) (now : UInt64) {s : Store} {file : File}
    (hfile : s.files.lookup s.alloc.segmentID = some file)
    (hoff : s.alloc.offset = file.bytes.length)
    (hfresh : s.files.lookup (s.nextSeg + 1) = none) :
    (∃ e, checkFooter file.bytes s.alloc.offset (sealFooter s.alloc now) = .error e ∧
        sealActiveLocked fault now s = (.error e, fault, s)) ∨
      ∃ footer r fault' s', sealActiveLocked fault now s = (r, fault', s') ∧
        checkFooter file.bytes s.alloc.offset (sealFooter s.alloc now) = .ok footer ∧
        Seals fault now s file footer r fault' s' := by
  have hne : s.nextSeg + 1 ≠ s.alloc.segmentID := by
    intro heq
    rw [heq, hfile] at hfresh
    simp at hfresh
  cases hcheck : checkFooter file.bytes s.alloc.offset (sealFooter s.alloc now) with
  | error e => exact .inl ⟨e, rfl, by simp [sealActiveLocked, hfile, hcheck]⟩
  | ok footer =>
    right
    have hbars : ∀ op ∈ [FileOp.sync s.alloc.segmentID, .sync s.alloc.segmentID],
        op = .stage ∨ op = .sync s.alloc.segmentID := by simp
    obtain ⟨t, file', htorn, hok, hfirst⟩ := runOps_durable footer.encode hbars (by simp)
      fault hfile
    rw [← hoff] at htorn hok
    rcases hrun : runOps [.write s.alloc.segmentID s.alloc.offset footer.encode,
      .sync s.alloc.segmentID, .sync s.alloc.segmentID] fault s.files with ⟨ok, fault', files⟩
    rw [hrun] at htorn hok
    have hseal : sealActiveLocked fault now s =
        if ok then newActiveSegment fault' now s.alloc.segmentClass { s with files }
        else (.error .ioError, fault', { s with files }) := by
      simp only [sealActiveLocked, hfile, hcheck, hrun]
      cases ok <;> rfl
    cases ok with
    | false =>
      refine ⟨footer, _, fault', _, hseal, rfl, .footer ?_ htorn hfirst⟩
      have hspares3 : false = fault.spares 3 := (runOps_result hrun).1
      by_contra hspares
      have hspares' : fault.spares 3 = true :=
        Fault.spares_mono (show 3 ≤ 5 by omega) (by simpa using hspares)
      rw [← hspares3] at hspares'
      simp at hspares'
    | true =>
      obtain ⟨hsynced, rfl⟩ := hok rfl
      have hspares3 : fault.spares 3 = true := (runOps_result hrun).1.symm
      have hfault' : fault' = fault.after 3 := (runOps_result hrun).2 rfl
      have hold : files.lookup s.alloc.segmentID =
          some ⟨file.bytes ++ footer.encode, file.bytes ++ footer.encode⟩ := htorn.durable hsynced
      have hnone : files.lookup (s.nextSeg + 1) = none := by
        rw [htorn.others _ hne, hfresh]
      obtain ⟨hothers, hnew⟩ := runOps_newFile
        (newSegmentHeader (s.nextSeg + 1) s.alloc.segmentClass).encode fault' hnone
      rcases hrun' : runOps [.create (s.nextSeg + 1), .write (s.nextSeg + 1) 0
        (newSegmentHeader (s.nextSeg + 1) s.alloc.segmentClass).encode] fault' files with
        ⟨ok', fault'', files'⟩
      rw [hrun'] at hothers hnew
      have hold' : files'.lookup s.alloc.segmentID = _ := (hothers _ hne.symm).trans hold
      have hothers' : ∀ id, id ≠ s.alloc.segmentID → id ≠ s.nextSeg + 1 →
          files'.lookup id = s.files.lookup id := fun id hid hid' =>
        (hothers id hid').trans (htorn.others id hid)
      cases ok' with
      | false =>
        have hsome : fault.spares 5 = false := by
          have hspares2 : false = fault'.spares 2 := (runOps_result hrun').1
          rw [hspares2, hfault', Fault.spares_after hspares3]
        have hfirst' : ∀ j, fault ≠ some (0, j) := by
          rintro j rfl
          simp [Fault.spares] at hspares3
        have hresult : sealActiveLocked fault now s =
            (.error .ioError, fault'', { s with files := files', nextSeg := s.nextSeg + 1 }) := by
          rw [hseal]
          simp only [if_true, newActiveSegment, hrun']
        rcases hnew with ⟨hsame, -⟩ | ⟨u, hu, hnew, -⟩
        · have hnew : files'.lookup (s.nextSeg + 1) = none := (congrArg _ hsame).trans hnone
          exact ⟨footer, _, fault'', _, hresult, rfl, .header (u := none) hsome hfirst'
            ⟨hold', hnew, by simp, hothers'⟩⟩
        · exact ⟨footer, _, fault'', _, hresult, rfl, .header (u := some u) hsome hfirst'
            ⟨hold', hnew, by simpa using hu, hothers'⟩⟩
      | true =>
        obtain ⟨-, hfalse⟩ | ⟨u, hu, hnew, hall⟩ := hnew
        · simp at hfalse
        obtain rfl := hall rfl
        have hspares2 : true = fault'.spares 2 := (runOps_result hrun').1
        rw [hfault', Fault.spares_after hspares3] at hspares2
        refine ⟨footer, _, _, _, ?_, rfl, .done hspares2.symm ⟨hold', hnew, by simp, hothers'⟩⟩
        have hfault'' : fault'' = fault.after 5 := by
          have hafter : fault'' = fault'.after 2 := (runOps_result hrun').2 rfl
          rw [hafter, hfault', Fault.after_after]
        rw [hseal, ← hfault'']
        simp only [if_true, newActiveSegment, hrun', afterSeal]

end Store

end Nufs.Storage
