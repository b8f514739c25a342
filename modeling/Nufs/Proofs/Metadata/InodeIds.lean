/-
When minted inode IDs are new.

The memory of a leader that has led since it read the rows is current: what is in its free
list has no row, and a counter that has been raised is above everything that has a row or is
free.  A leader that comes back has neither.
-/
import Mathlib.Data.List.Nodup
import Nufs.Metadata.InodeIds
import Nufs.Lib.Guarded
import Nufs.Lib.Maximum

namespace Nufs.Inodes

open Maximum List

/-- The rows: free IDs have no inode, and every entry has an inode of its own. -/
structure Rows.Sound (rows : Rows) : Prop where
  free : ∀ id ∈ rows.freeList, id ∉ rows.inodes
  nodup : rows.freeList.Nodup
  names : (rows.entries.map Prod.snd).Nodup
  inodes : ∀ e ∈ rows.entries, e.2 ∈ rows.inodes

/-- The memory of a node matches the rows. -/
structure Current (rows : Rows) (m : Memory) : Prop where
  free : ∀ id ∈ m.inodeFreeList, id ∉ rows.inodes
  nodup : m.inodeFreeList.Nodup
  covers : ∀ id ∈ rows.freeList, id ∈ m.inodeFreeList
  seeded : m.inodeIDMaxInit = true →
    ∀ id, id ∈ rows.inodes ∨ id ∈ m.inodeFreeList → id ≤ m.inodeSeq

variable {rows : Rows} {m : Memory}

/-! ### Minting -/

/-- The raised counter is at least every inode row. -/
theorem Current.le_ensure (h : Current rows m) :
    ∀ id ∈ rows.inodes, id ≤ (ensureInodeIDMax rows m).inodeSeq := by
  intro id hid
  rw [ensureInodeIDMax]
  split
  · exact h.seeded ‹_› id (.inl hid)
  · exact le_foldl_max.2 id hid

theorem ensure_free (rows : Rows) (m : Memory) :
    (ensureInodeIDMax rows m).inodeFreeList = m.inodeFreeList := by
  rw [ensureInodeIDMax]
  split <;> rfl

/-- A second scan finds no less than the first. -/
theorem ensure_le_reseed (rows : Rows) (m : Memory) :
    (ensureInodeIDMax rows m).inodeSeq ≤ (reseedInodeIDMax rows m).inodeSeq := by
  rw [ensureInodeIDMax]
  split
  · exact le_foldl_max.1
  · exact Nat.le_refl _

theorem Current.reseed_le (h : Current rows m) :
    (reseedInodeIDMax rows m).inodeSeq ≤ (ensureInodeIDMax rows m).inodeSeq := by
  refine foldl_max_le.mpr ⟨?_, h.le_ensure⟩
  rw [ensureInodeIDMax]
  split
  · exact Nat.le_refl _
  · exact le_foldl_max.1

/-- What a mint from a current memory gives: an ID that is new, and a memory that is current. -/
structure Mints (rows : Rows) (m : Memory) (out : Minted) : Prop where
  new : out.id ∉ rows.inodes
  entries : out.rows.entries = rows.entries
  inodes : out.rows.inodes = rows.inodes
  freeList : out.rows.freeList.Sublist rows.freeList
  taken : out.id ∉ out.mem.inodeFreeList
  current : Current out.rows out.mem
  seeded : out.mem.inodeIDMaxInit = true → out.id ≤ out.mem.inodeSeq
  shrinks : ∀ id ∈ out.mem.inodeFreeList, id ∈ m.inodeFreeList
  -- a scan after it finds what one before it found, or the ID just minted
  rescan : (ensureInodeIDMax rows m).inodeSeq ≤ (reseedInodeIDMax out.rows out.mem).inodeSeq ∧
    (reseedInodeIDMax out.rows out.mem).inodeSeq ≤ (ensureInodeIDMax rows m).inodeSeq + 1

theorem Current.nextInodeID (h : Current rows m)
    (hseq : (ensureInodeIDMax rows m).inodeSeq + 1 < idCount) :
    Mints rows m (nextInodeID true rows m) := by
  rw [Inodes.nextInodeID]
  split
  case h_1 id hid =>
    obtain ⟨front, hfront⟩ := List.getLast?_eq_some_iff.mp hid
    have hnodup := h.nodup
    rw [hfront, nodup_append] at hnodup
    have hid : id ∈ m.inodeFreeList := by simp [hfront]
    have hdrop : m.inodeFreeList.dropLast = front := by simp [hfront]
    have hsub : ∀ x ∈ front, x ∈ m.inodeFreeList := fun x hx => by simp [hfront, hx]
    have hnot : id ∉ front := fun hmem => hnodup.2.2 id hmem id (by simp) rfl
    refine ⟨h.free id hid, rfl, rfl, filter_sublist, ?_, ?_, fun hinit => ?_, ?_,
      ensure_le_reseed rows m, Nat.le_succ_of_le h.reseed_le⟩
    · rw [hdrop]
      exact hnot
    · refine ⟨fun x hx => h.free x ?_, ?_, fun x hx => ?_, fun hinit x hx => ?_⟩
      · exact hsub x (hdrop ▸ hx)
      · rw [hdrop]
        exact hnodup.1
      · have hx := mem_filter.mp hx
        have hmem := h.covers x hx.1
        rw [hfront, mem_append, mem_singleton] at hmem
        rw [hdrop]
        exact hmem.resolve_right (by simpa using hx.2)
      · exact h.seeded hinit x (hx.imp_right fun hx => hsub x (hdrop ▸ hx))
    · exact h.seeded hinit id (.inr hid)
    · rw [hdrop]
      exact hsub
  case h_2 hnone =>
    have hnil : m.inodeFreeList = [] := List.getLast?_eq_none_iff.mp hnone
    have hfree : (ensureInodeIDMax rows m).inodeFreeList = [] := by
      rw [ensureInodeIDMax]
      split <;> exact hnil
    have hlt : ∀ x ∈ rows.inodes, x < (ensureInodeIDMax rows m).inodeSeq + 1 :=
      fun x hx => Nat.lt_succ_of_le (h.le_ensure x hx)
    simp only [Nat.mod_eq_of_lt hseq]
    refine ⟨fun hmem => Nat.lt_irrefl _ (hlt _ hmem), rfl, rfl, .refl _, ?_, ?_,
      fun _ => Nat.le_refl _, ?_, ?_⟩
    · simp [hfree]
    · refine ⟨by simp [hfree], by simp [hfree], ?_, fun _ x hx => ?_⟩
      · rw [show (_ : Memory).inodeFreeList = _ from hfree, ← hnil]
        exact h.covers
      · rcases hx with hx | hx
        · exact Nat.le_of_lt (hlt x hx)
        · simp [hfree] at hx
    · simp [hfree]
    · exact ⟨Nat.le_of_succ_le le_foldl_max.1,
        foldl_max_le.mpr ⟨Nat.le_refl _, fun x hx => Nat.le_of_lt (hlt x hx)⟩⟩

theorem Current.of_subset {rows' : Rows} (h : Current rows m)
    (hinodes : ∀ id ∈ rows'.inodes, id ∈ rows.inodes)
    (hfree : ∀ id ∈ rows'.freeList, id ∈ rows.freeList) : Current rows' m :=
  ⟨fun id hid hmem => h.free id hid (hinodes id hmem), h.nodup,
    fun id hid => h.covers id (hfree id hid),
    fun hinit id hid => h.seeded hinit id (hid.imp_left (hinodes id))⟩

variable {out : Minted} {name : List Char} {w : World}

theorem Rows.Sound.of_mints (h : rows.Sound) (hout : Mints rows m out) : out.rows.Sound := by
  refine ⟨fun id hid => ?_, h.nodup.sublist hout.freeList, ?_, ?_⟩
  · rw [hout.inodes]
    exact h.free id (hout.freeList.subset hid)
  · rw [hout.entries]
    exact h.names
  · rw [hout.entries, hout.inodes]
    exact h.inodes

/-! ### Steps -/

/-- The rows are sound and the memory current. -/
def Holds (rows : Rows) (m : Memory) : Prop := rows.Sound ∧ Current rows m

/-- A create with a minted ID and a new name goes through. -/
theorem create_minted (h : rows.Sound) (hout : Mints rows m out)
    (hname : name ∉ rows.entries.map Prod.fst) :
    ∃ rows', out.rows.create name out.id = some rows' ∧ Holds rows' out.mem := by
  have hnew := hout.new
  have hfree : out.id ∉ out.rows.freeList := fun hid => hout.taken (hout.current.covers _ hid)
  have hsound := h.of_mints hout
  refine ⟨_, if_neg ?_, ⟨fun id hid hmem => ?_, hsound.nodup, ?_, fun e he => ?_⟩,
    ⟨fun id hid hmem => ?_, hout.current.nodup, hout.current.covers, fun hinit id hid => ?_⟩⟩
  · rw [hout.entries, hout.inodes, not_or]
    exact ⟨hname, hnew⟩
  · rcases mem_cons.mp hmem with rfl | hmem
    · exact hfree hid
    · exact hsound.free id hid hmem
  · refine nodup_cons.mpr ⟨fun hid => ?_, hsound.names⟩
    obtain ⟨e, he, heq⟩ := mem_map.mp hid
    have hmem := hsound.inodes e he
    rw [heq, hout.inodes] at hmem
    exact hnew hmem
  · rcases mem_cons.mp he with rfl | he
    · exact .head _
    · exact .tail _ (hsound.inodes e he)
  · rcases mem_cons.mp hmem with rfl | hmem
    · exact hout.taken hid
    · exact hout.current.free id hid hmem
  · rcases hid with hid | hid
    · rcases mem_cons.mp hid with rfl | hid
      · exact hout.seeded hinit
      · exact hout.current.seeded hinit id (.inl hid)
    · exact hout.current.seeded hinit id (.inr hid)

/-- With a name that is taken the create fails, whatever the ID. -/
theorem create_of_taken (hout : Mints rows m out) (hname : name ∈ rows.entries.map Prod.fst) :
    out.rows.create name out.id = none := by
  rw [Rows.create, hout.entries, if_pos (.inl hname)]

/-- A second scan keeps a memory current if nothing free is above the first. -/
theorem Current.reseed (h : Current rows m)
    (hfree : ∀ id ∈ m.inodeFreeList, id ≤ (reseedInodeIDMax rows m).inodeSeq) :
    Current rows (reseedInodeIDMax rows m) := by
  have heq : (reseedInodeIDMax rows m).inodeFreeList = m.inodeFreeList := ensure_free _ _
  refine ⟨heq ▸ h.free, heq ▸ h.nodup, heq ▸ h.covers, fun _ id hid => ?_⟩
  rcases hid with hid | hid
  · exact le_foldl_max.2 id hid
  · exact hfree id (heq ▸ hid)

theorem Holds.reseed (h : rows.Sound) (hout : Mints rows m out)
    (hfree : ∀ id ∈ m.inodeFreeList, id ≤ (ensureInodeIDMax rows m).inodeSeq) :
    Holds out.rows (reseedInodeIDMax out.rows out.mem) :=
  ⟨h.of_mints hout, hout.current.reseed fun id hid =>
    Nat.le_trans (hfree id (hout.shrinks id hid)) hout.rescan.1⟩

section

variable (h : Holds rows m) (hseq : (ensureInodeIDMax rows m).inodeSeq + 2 < idCount)

include h hseq

/-- A new name is created at the first attempt. -/
theorem Holds.create (hname : name ∉ rows.entries.map Prod.fst) (removed' : Bool) :
    (applyNamespaceCreate true removed' name rows m).1 = some (nextInodeID true rows m).id ∧
      Holds (applyNamespaceCreate true removed' name rows m).2.1
        (applyNamespaceCreate true removed' name rows m).2.2 := by
  have hmints := h.2.nextInodeID (by omega)
  obtain ⟨rows', hcreate, hholds⟩ := create_minted h.1 hmints hname
  rw [applyNamespaceCreate]
  simp only [hcreate]
  exact ⟨trivial, hholds⟩

/-- A name that is taken costs two IDs. -/
theorem Holds.create_taken (hname : name ∈ rows.entries.map Prod.fst)
    (hfree : ∀ id ∈ m.inodeFreeList, id ≤ (ensureInodeIDMax rows m).inodeSeq) :
    Holds (applyNamespaceCreate true true name rows m).2.1
      (applyNamespaceCreate true true name rows m).2.2 := by
  have hmints := h.2.nextInodeID (by omega)
  have hreseed := Holds.reseed h.1 hmints hfree
  have hseq' : (ensureInodeIDMax (nextInodeID true rows m).rows
      (reseedInodeIDMax (nextInodeID true rows m).rows (nextInodeID true rows m).mem)).inodeSeq + 1 <
      idCount := by
    have hle := hmints.rescan.2
    show (reseedInodeIDMax _ _).inodeSeq + 1 < idCount
    omega
  have hmints' := hreseed.2.nextInodeID hseq'
  rw [applyNamespaceCreate]
  have hname' : name ∈ (nextInodeID true rows m).rows.entries.map Prod.fst := by
    rw [hmints.entries]
    exact hname
  simp only [create_of_taken hmints hname, create_of_taken hmints' hname']
  exact ⟨hreseed.1.of_mints hmints', hmints'.current⟩

end

/-- The inode of an entry can be removed and its ID released. -/
theorem Holds.unlink (h : Holds rows m) {e : List Char × InodeID}
    (he : rows.entries.find? (·.1 = name) = some e) (written : Bool) :
    Holds (releaseInodeID written e.2 (rows.unlink name e.2) m).1
      (releaseInodeID written e.2 (rows.unlink name e.2) m).2 := by
  have hmem := List.mem_of_find?_eq_some he
  have hname : e.1 = name := by simpa using List.find?_some he
  have hlive := h.1.inodes e hmem
  have hfree : e.2 ∉ m.inodeFreeList := fun hid => h.2.free _ hid hlive
  have hgone : e.2 ∉ (rows.unlink name e.2).inodes := by simp [Rows.unlink]
  have hsub : ∀ id ∈ (rows.unlink name e.2).inodes, id ∈ rows.inodes :=
    fun id hid => (mem_filter.mp hid).1
  have hsound : (rows.unlink name e.2).Sound := by
    refine ⟨fun id hid hin => h.1.free id hid (hsub id hin), h.1.nodup,
      h.1.names.sublist (filter_sublist.map _), fun e' he' => ?_⟩
    obtain ⟨he', hne⟩ := mem_filter.mp he'
    refine mem_filter.mpr ⟨h.1.inodes e' he', ?_⟩
    -- two entries with one inode would be one entry
    have hother : e'.2 ≠ e.2 := by
      intro heq
      rw [inj_on_of_nodup_map h.1.names he' hmem heq] at hne
      simp [hname] at hne
    simpa using hother
  have hcurrent : Current (rows.unlink name e.2) m := h.2.of_subset hsub fun _ hid => hid
  rw [releaseInodeID]
  split
  · exact ⟨hsound, hcurrent⟩
  split
  · have hreleased : ∀ free, (∀ id ∈ free, id = e.2 ∨ id ∈ rows.freeList) →
        Current { rows.unlink name e.2 with freeList := free }
          { m with inodeFreeList := m.inodeFreeList ++ [e.2] } := by
      intro free hsubset
      refine ⟨fun id hid => ?_, ?_, fun id hid => ?_, fun hinit id hid => ?_⟩
      · rcases mem_append.mp hid with hid | hid
        · exact hcurrent.free id hid
        · exact mem_singleton.mp hid ▸ hgone
      · exact nodup_append.mpr ⟨h.2.nodup, nodup_singleton _,
          fun a ha b hb heq => hfree (mem_singleton.mp hb ▸ heq ▸ ha)⟩
      · rcases hsubset id hid with rfl | hid
        · simp
        · exact mem_append_left _ (h.2.covers id hid)
      · rcases hid with hid | hid
        · exact h.2.seeded hinit id (.inl (hsub id hid))
        · rcases mem_append.mp hid with hid | hid
          · exact h.2.seeded hinit id (.inr hid)
          · exact h.2.seeded hinit id (.inl (mem_singleton.mp hid ▸ hlive))
    cases written with
    | true =>
      refine ⟨⟨fun id hid => ?_, h.1.nodup.insert, hsound.names, hsound.inodes⟩,
        hreleased _ fun id hid => mem_insert_iff.mp hid⟩
      rcases mem_insert_iff.mp hid with rfl | hid
      · exact hgone
      · exact hsound.free id hid
    | false => exact ⟨hsound, hreleased _ fun id hid => .inr hid⟩
  · exact ⟨hsound, hcurrent⟩

/-! ### Runs -/

/-- What the run must respect: a node that becomes leader has a memory as a start on the rows
of now gives it; the free list's row of a minted ID is removed and the counter does not wrap;
and no create of a name that is taken finds a free ID above all inodes. -/
def World.Steady (w : World) : Event → Prop
  | .create n name removed removed' => removed = true ∧ removed' = true ∧
      (ensureInodeIDMax w.rows (w.mem n)).inodeSeq + 2 < idCount ∧
      (name ∈ w.rows.entries.map Prod.fst → ∀ id ∈ (w.mem n).inodeFreeList,
        id ≤ (ensureInodeIDMax w.rows (w.mem n)).inodeSeq)
  | .elect n =>
    (w.mem n).inodeIDMaxInit = false ∧ (w.mem n).inodeFreeList.Perm w.rows.freeList
  | _ => True

instance World.Steady.decidable (w : World) : (e : Event) → Decidable (w.Steady e)
  | .create _ _ _ _ => inferInstanceAs (Decidable (_ ∧ _ ∧ _ ∧ _))
  | .elect _ => inferInstanceAs (Decidable (_ ∧ _))
  | .unlink _ _ _ => isTrue trivial
  | .restart _ _ _ => isTrue trivial

structure World.Inv (w : World) : Prop where
  rows : w.rows.Sound
  leader : ∀ n, w.leader = some n → Current w.rows (w.mem n)

theorem World.Inv.set {n : Nat} (hleader : w.leader = some n) (h : Holds rows m) :
    (w.set n rows m).Inv := by
  refine ⟨h.1, fun n' hn' => ?_⟩
  obtain rfl : n = n' := Option.some.inj (hleader.symm.trans hn')
  simpa [World.set] using h.2

theorem World.Inv.step {w' : World} {e : Event} (h : w.Inv) (hsteady : w.Steady e)
    (hstep : w.step e = some w') : w'.Inv := by
  cases e with
  | create n name removed removed' =>
    obtain ⟨hleader, heq⟩ := Option.ite_none_right_eq_some.mp hstep
    obtain ⟨rfl, rfl, hseq, hfree⟩ := hsteady
    have hholds : Holds w.rows (w.mem n) := ⟨h.rows, h.leader n hleader⟩
    cases heq
    refine .set hleader ?_
    by_cases hname : name ∈ w.rows.entries.map Prod.fst
    · exact hholds.create_taken hseq hname (hfree hname)
    · exact (hholds.create hseq hname true).2
  | unlink n name written =>
    obtain ⟨hleader, heq⟩ := Option.ite_none_right_eq_some.mp hstep
    obtain ⟨e, he, rfl⟩ := Option.map_eq_some_iff.mp heq
    exact .set hleader (.unlink ⟨h.rows, h.leader n hleader⟩ he written)
  | restart n seen order =>
    obtain ⟨-, heq⟩ := Option.ite_none_right_eq_some.mp hstep
    cases heq
    refine ⟨h.rows, fun n' hn' => ?_⟩
    obtain ⟨hleader, hne⟩ := Option.filter_eq_some_iff.mp hn'
    have hne : n' ≠ n := by simpa using hne
    simpa [hne] using h.leader n' hleader
  | elect n =>
    cases hstep
    obtain ⟨hinit, hperm⟩ := hsteady
    refine ⟨h.rows, fun n' hn' => ?_⟩
    cases hn'
    refine ⟨fun id hid => h.rows.free id (hperm.mem_iff.mp hid), hperm.nodup_iff.mpr h.rows.nodup,
      fun id hid => hperm.mem_iff.mpr hid, fun htrue => ?_⟩
    rw [hinit] at htrue
    cases htrue

theorem World.new_inv : World.new.Inv := by
  refine ⟨⟨?_, ?_, ?_, ?_⟩, ?_⟩ <;> simp [World.new]

/--
**Minted IDs are new.** In a run that respects `Steady`, the leader mints an ID without an
inode row, and a create of a new name succeeds with it.
-/
theorem minted_ids_new {events : List Event} {w : World}
    (hmeets : Guarded.Meets World.step World.Steady events World.new)
    (hrun : Guarded.run World.step events World.new = some w) {n : Nat} {name : List Char}
    {removed removed' : Bool} (hleader : w.leader = some n)
    (hsteady : w.Steady (.create n name removed removed')) :
    (nextInodeID removed w.rows (w.mem n)).id ∉ w.rows.inodes ∧
      (name ∉ w.rows.entries.map Prod.fst →
        (applyNamespaceCreate removed removed' name w.rows (w.mem n)).1 =
          some (nextInodeID removed w.rows (w.mem n)).id) := by
  have hinv : w.Inv := Guarded.run_invariant (fun _ _ _ h hs => h.step hs) World.new_inv hmeets hrun
  have hholds : Holds w.rows (w.mem n) := ⟨hinv.rows, hinv.leader n hleader⟩
  obtain ⟨rfl, rfl, hseq, -⟩ := hsteady
  exact ⟨(hholds.2.nextInodeID (by omega)).new, fun hname => (hholds.create hseq hname true).1⟩

/-- A node starts after an unlink and then leads: it mints the released ID. -/
def handOver : List Event :=
  [.elect 0, .create 0 ['a'] true true, .unlink 0 ['a'] true, .restart 1 ⟨[], [1], [2]⟩ [2],
    .elect 1]

theorem minted_ids_new_handOver : ∃ w, Guarded.run World.step handOver World.new = some w ∧
    (applyNamespaceCreate true true ['b'] w.rows (w.mem 1)).1 = some 2 := by
  have hmeets : Guarded.Meets World.step World.Steady handOver World.new := by decide
  refine ⟨_, rfl, (minted_ids_new hmeets rfl rfl ?_).2 ?_⟩ <;> decide

/-- A node starts after two unlinks, and leads after another has minted both IDs again. -/
def staleHandOver : List Event :=
  [.elect 0, .create 0 ['a'] true true, .create 0 ['b'] true true, .unlink 0 ['a'] true,
    .unlink 0 ['b'] true, .restart 1 ⟨[], [1], [3, 2]⟩ [2, 3], .create 0 ['c'] true true,
    .create 0 ['d'] true true, .elect 1]

theorem stale_free_list : ∃ w, Guarded.run World.step staleHandOver World.new = some w ∧
    w.leader = some 1 ∧ (nextInodeID true w.rows (w.mem 1)).id ∈ w.rows.inodes ∧
    ['e'] ∉ w.rows.entries.map Prod.fst ∧
    (applyNamespaceCreate true true ['e'] w.rows (w.mem 1)).1 = none := by
  refine ⟨_, rfl, ?_, ?_, ?_, ?_⟩ <;> decide

end Nufs.Inodes
