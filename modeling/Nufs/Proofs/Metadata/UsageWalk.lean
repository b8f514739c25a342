/-
The scan of a bucket is a sum over the files of the bucket.

In a forest of names the walk from a root adds up what the names below it stand for.  Where
every file has one name, and every inode the bucket of the directory it is in, these are
the files whose rows name the bucket.
-/
import Nufs.Lib.EdgeSum
import Nufs.Metadata.Usage
import Nufs.Proofs.Metadata.Forest

namespace Nufs.Metadata

open Relation Option Finset

/-! ### The walk as a sum over names -/

/-- The directory a name is in. -/
def Key.directory : Key → InodeID
  | ns parent _ => parent
  | _ => 0

variable (rows : Rows Value)

/-- The entry the scan finds under a key. -/
def Rows.listed (k : Key) : Option DirEntry := rows.childIn k.directory k

/-- The inode the scan finds under a key. -/
def Rows.listedInode (k : Key) : InodeID :=
  ((rows.listed k).map DirEntry.inodeID).getD 0

/-- The names the scan takes. -/
def Rows.listedNames : Finset Key :=
  rows.keys.filter fun k => (rows.listed k).isSome

/-- What a name of a file counts. -/
def Rows.nameUsage (k : Key) : Int × Int :=
  rows.entryUsage (fun _ => some 0) (rows.listed k) |>.getD 0

section Names

variable {rows : Rows Value}

variable {k : Key} {e : DirEntry}

theorem childIn_eq_some {dir : InodeID} : rows.childIn dir k = some e ↔
      ∃ n, k = .ns dir n ∧ n ≠ [] ∧ rows.lookup k = some (.entry e) := by
  constructor
  · intro h
    unfold Rows.childIn at h
    split at h
    · rename_i parent name e' hlookup
      split at h
      · rename_i hcond
        obtain ⟨rfl, hne⟩ := hcond
        cases h
        exact ⟨name, rfl, hne, hlookup⟩
      · cases h
    · cases h
  · rintro ⟨n, rfl, hne, hlookup⟩
    unfold Rows.childIn
    rw [hlookup]
    exact if_pos ⟨rfl, hne⟩

theorem listed_eq_some : rows.listed k = some e ↔
      ∃ p n, k = .ns p n ∧ n ≠ [] ∧ rows.lookup k = some (.entry e) := by
  unfold Rows.listed
  rw [childIn_eq_some]
  constructor
  · rintro ⟨n, hk, hne, hlookup⟩
    exact ⟨_, n, hk, hne, hlookup⟩
  · rintro ⟨p, n, rfl, hne, hlookup⟩
    exact ⟨n, rfl, hne, hlookup⟩

theorem childIn_eq (dir : InodeID) (k : Key) :
    rows.childIn dir k = if k.directory = dir then rows.listed k else none := by
  split_ifs with hdir
  · rw [← hdir]
    rfl
  · rw [eq_none_iff_forall_ne_some]
    intro e he
    obtain ⟨n, rfl, -⟩ := childIn_eq_some.mp he
    exact hdir rfl

theorem listedInode_of (h : rows.listed k = some e) : rows.listedInode k = e.inodeID := by
  unfold Rows.listedInode
  rw [h]
  rfl

theorem mem_keys_of_lookup {v : Value} (h : rows.lookup k = some v) : k ∈ rows.keys := by
  rw [Finmap.mem_keys]
  exact Finmap.mem_of_lookup_eq_some h

theorem mem_listedNames : k ∈ rows.listedNames ↔ ∃ e, rows.listed k = some e := by
  unfold Rows.listedNames
  rw [mem_filter, isSome_iff_exists]
  constructor
  · exact fun h => h.2
  · rintro ⟨e, he⟩
    obtain ⟨p, n, -, -, hlookup⟩ := listed_eq_some.mp he
    exact ⟨mem_keys_of_lookup hlookup, e, he⟩

/-- A listed name leads from one inode to another. -/
abbrev Rows.Next : InodeID → InodeID → Prop :=
  EdgeSum.Next rows.listedNames Key.directory rows.listedInode

/-- The listed names below a directory. -/
noncomputable abbrev Rows.below : InodeID → Finset Key :=
  EdgeSum.below rows.listedNames Key.directory rows.listedInode

variable {a b : InodeID} {walk : InodeID → Option (Int × Int)}

/-- An edge of the scan is a name. -/
theorem names_of_next (h : rows.Next a b) : rows.view.Names a b := by
  obtain ⟨k, hk, rfl, rfl⟩ := h
  obtain ⟨e, he⟩ := mem_listedNames.mp hk
  obtain ⟨p, n, rfl, -, hlookup⟩ := listed_eq_some.mp he
  rw [listedInode_of he]
  exact ⟨n, e.type, view_entry hlookup⟩

theorem entryUsage_directory (h : e.type = .directory) :
    rows.entryUsage walk (some e) = walk e.inodeID := if_pos h

theorem entryUsage_file (h : e.type ≠ .directory) :
    rows.entryUsage walk (some e) = some (rows.usedBytes e.inodeID, 1) := if_neg h

theorem nameUsage_directory (he : rows.listed k = some e) (h : e.type = .directory) :
    rows.nameUsage k = 0 := by
  unfold Rows.nameUsage
  rw [he, entryUsage_directory h]
  rfl

theorem nameUsage_file (he : rows.listed k = some e) (h : e.type ≠ .directory) :
    rows.nameUsage k = (rows.usedBytes e.inodeID, 1) := by
  unfold Rows.nameUsage
  rw [he, entryUsage_file h]
  rfl

end Names

section Walk

variable {R : InodeID → Prop} {rows : Rows Value}

theorem Sound.edgeForest (h : Sound R rows) :
    EdgeSum.Forest rows.listedNames Key.directory rows.listedInode := by
  refine ⟨fun a hcycle => ?_, ?_⟩
  · exact h.tree.acyclic a (.mono (fun _ _ => names_of_next) _ _ hcycle)
  intro k hk k' hk' f hf hkf hkf'
  obtain ⟨e, he⟩ := mem_listedNames.mp hk
  obtain ⟨e', he'⟩ := mem_listedNames.mp hk'
  obtain ⟨d, hd⟩ := mem_listedNames.mp hf
  rw [listedInode_of he] at hkf
  rw [listedInode_of he'] at hkf'
  obtain ⟨p, n, rfl, -, hlookup⟩ := listed_eq_some.mp he
  obtain ⟨p', n', rfl, -, hlookup'⟩ := listed_eq_some.mp he'
  obtain ⟨q, m, rfl, -, hinside⟩ := listed_eq_some.mp hd
  -- Something is in the inode both names stand for, so it is a directory and has one name.
  obtain ⟨nlink, hdir⟩ := h.tree.dirs q m _ _ (view_entry hinside)
  obtain ⟨nlink', hkind⟩ := h.tree.kinds p n _ _ (view_entry hlookup)
  have hentry : rows.view.entry p n = some (e.inodeID, e.type) := view_entry hlookup
  have hentry' : rows.view.entry p' n' = some (e'.inodeID, e'.type) := view_entry hlookup'
  rw [hkf, show Key.directory (.ns q m) = q from rfl] at hkind hentry
  rw [hkf', show Key.directory (.ns q m) = q from rfl] at hentry'
  rw [hdir] at hkind
  rw [← (Prod.mk.inj (Option.some.inj hkind)).1] at hentry
  obtain ⟨rfl, rfl⟩ := Prod.mk.inj (h.tree.once p n p' n' q _ hentry hentry')
  rfl

variable {k : Key} {e : DirEntry}

/-- Nothing is below a file. -/
theorem Sound.below_file (h : Sound R rows) (he : rows.listed k = some e)
    (hfile : e.type ≠ .directory) : rows.below e.inodeID = ∅ := by
  obtain ⟨p, n, rfl, -, hlookup⟩ := listed_eq_some.mp he
  obtain ⟨nlink, hkind⟩ := h.tree.kinds p n _ _ (view_entry hlookup)
  refine EdgeSum.below_eq_empty fun f hf hdir => ?_
  refine h.tree.leaf hkind hfile (rows.listedInode f) ?_
  exact names_of_next ⟨f, hf, hdir, rfl⟩

/-- An entry of a walk counts what its name counts and what is below it. -/
theorem Sound.entryUsage_eq (h : Sound R rows) {walk : InodeID → Option (Int × Int)}
    (he : rows.listed k = some e)
    (hwalk : walk e.inodeID = some (∑ f ∈ rows.below e.inodeID, rows.nameUsage f)) :
    rows.entryUsage walk (some e) =
      some (rows.nameUsage k + ∑ f ∈ rows.below e.inodeID, rows.nameUsage f) := by
  by_cases htype : e.type = .directory
  · rw [entryUsage_directory htype, hwalk, nameUsage_directory he htype, zero_add]
  · rw [entryUsage_file htype, nameUsage_file he htype, h.below_file he htype, sum_empty, add_zero]

/-- A walk that is deep enough adds up the names below the directory. -/
theorem Sound.walkUsageTree_eq (h : Sound R rows) {depth : Nat} {dir : InodeID}
    (hdepth : (rows.below dir).card < depth) :
    rows.walkUsageTree depth dir = some (∑ k ∈ rows.below dir, rows.nameUsage k) := by
  induction depth generalizing dir with
  | zero => exact absurd hdepth (Nat.not_lt_zero _)
  | succ depth ih =>
    have husage : ∀ k, rows.entryUsage (rows.walkUsageTree depth) (rows.childIn dir k) =
        some (if k ∈ rows.listedNames ∧ k.directory = dir then rows.nameUsage k +
          ∑ f ∈ rows.below (rows.listedInode k), rows.nameUsage f else 0) := by
      intro k
      rw [childIn_eq]
      by_cases hk : k ∈ rows.listedNames ∧ k.directory = dir
      · obtain ⟨e, he⟩ := mem_listedNames.mp hk.1
        have hlt : (rows.below _).card < (rows.below _).card := h.edgeForest.card_below_lt hk.1
        rw [listedInode_of he, hk.2] at hlt
        rw [if_pos hk.2, if_pos hk, he, listedInode_of he]
        exact h.entryUsage_eq he (ih (by omega))
      have hnone : (if k.directory = dir then rows.listed k else none) = none := by
        by_cases hdir : k.directory = dir
        · rw [if_pos hdir, eq_none_iff_forall_ne_some]
          exact fun e he => hk ⟨mem_listedNames.mpr ⟨e, he⟩, hdir⟩
        · rw [if_neg hdir]
      rw [if_neg hk, hnone]
      rfl
    have hfilter : (rows.listedNames.filter fun k => k.directory = dir) =
        rows.keys.filter fun k => k ∈ rows.listedNames ∧ k.directory = dir := by
      ext k
      rw [mem_filter, mem_filter]
      constructor
      · intro hk
        exact ⟨(mem_filter.mp hk.1).1, hk⟩
      · exact fun hk => hk.2
    rw [Rows.walkUsageTree, h.edgeForest.sum_below, hfilter, sum_filter]
    simp only [husage, isSome_some, implies_true, if_true, getD_some]

end Walk

/-! ### The files of a bucket -/

/-- What the row of a file counts for a bucket. -/
def Rows.fileUsage (root : InodeID) (k : Key) : Int × Int :=
  match k, rows.lookup k with
  | .inode _, some (.inode row) =>
    if row.asV2.type ≠ .directory ∧ row.asV2.bucketRoot = root then (row.asV2.size, 1) else 0
  | _, _ => 0

/-- Bytes and objects of the files of a bucket. -/
def Rows.filesUsage (root : InodeID) : Int × Int :=
  ∑ k ∈ rows.keys, rows.fileUsage root k

/-- Names are where the scan finds them, and files where their rows say. -/
structure Placed (R : InodeID → Prop) (rows : Rows Value) : Prop where
  sound : Sound R rows
  named : ∀ p, rows.lookup (.ns p []) = none
  inherits : ∀ p n e, rows.lookup (.ns p n) = some (.entry e) →
    rows.bucketRoot e.inodeID = rows.bucketRoot p
  single : ∀ id row, rows.lookup (.inode id) = some (.inode row) →
    row.asV2.type ≠ .directory → row.asV2.nlink = 1

section Files

variable {R : InodeID → Prop} {rows : Rows Value}

theorem asV2_bucketRoot (row : InodeRow) : row.asV2.bucketRoot = row.asV1.bucketRoot := by
  cases row with
  | v1 m | v2 m => rfl

variable {id : InodeID} {row : InodeRow} {k : Key}

theorem bucketRoot_of_lookup (h : rows.HasInode id row) :
    rows.bucketRoot id = row.asV2.bucketRoot := by
  unfold Rows.bucketRoot
  rw [inode_of_lookup h, asV2_bucketRoot]

theorem usedBytes_of_lookup (h : rows.HasInode id row) :
    rows.usedBytes id = rows.extentBytesForInode row.asV2 := by
  unfold Rows.usedBytes
  rw [inode_of_lookup h]

theorem fileUsage_of_lookup (h : rows.HasInode id row) (root : InodeID) :
    rows.fileUsage root (.inode id) =
      if row.asV2.type ≠ .directory ∧ row.asV2.bucketRoot = root then (row.asV2.size, 1)
      else 0 := by
  unfold Rows.fileUsage
  rw [h]

theorem exists_row_of_fileUsage {root : InodeID} (h : rows.fileUsage root k ≠ 0) :
    ∃ id row, k = .inode id ∧ rows.HasInode id row ∧
      row.asV2.type ≠ .directory ∧ row.asV2.bucketRoot = root := by
  unfold Rows.fileUsage at h
  split at h
  · rename_i id row hlookup
    by_cases hfile : row.asV2.type ≠ .directory ∧ row.asV2.bucketRoot = root
    · exact ⟨id, row, rfl, hlookup, hfile⟩
    · rw [if_neg hfile] at h
      exact absurd rfl h
  · exact absurd rfl h

theorem exists_entry_of_nameUsage (h : rows.nameUsage k ≠ 0) :
    ∃ e, rows.listed k = some e ∧ e.type ≠ .directory := by
  cases he : rows.listed k with
  | none =>
    unfold Rows.nameUsage at h
    rw [he] at h
    exact absurd rfl h
  | some e => exact ⟨e, rfl, fun htype => h (nameUsage_directory he htype)⟩

/-- The row of a file that has a name. -/
theorem Sound.row_of_listed (h : Sound R rows) {e : DirEntry} (he : rows.listed k = some e) :
    ∃ row, rows.HasInode e.inodeID row ∧ row.asV2.type = e.type := by
  obtain ⟨p, n, rfl, -, hlookup⟩ := listed_eq_some.mp he
  obtain ⟨nlink, hkind⟩ := h.tree.kinds p n _ _ (view_entry hlookup)
  obtain ⟨row, hrow, htype, -⟩ := row_of_view hkind
  exact ⟨row, hrow, (asV2_type row).trans htype⟩

namespace Placed

variable {a b : InodeID}

section

variable (h : Placed R rows)
include h

theorem bucketRoot_of_path (hpath : ReflTransGen rows.view.Names a b) :
    rows.bucketRoot b = rows.bucketRoot a := by
  induction hpath with
  | refl => rfl
  | tail _ hbc ih =>
    obtain ⟨n, t, hentry⟩ := hbc
    obtain ⟨e, hlookup, rfl, -⟩ := entry_of_view hentry
    rw [h.inherits _ n e hlookup, ih]

theorem listed_of_lookup {p : InodeID} {n : List Char} {e : DirEntry}
    (hlookup : rows.lookup (.ns p n) = some (.entry e)) : rows.listed (.ns p n) = some e := by
  refine listed_eq_some.mpr ⟨p, n, rfl, ?_, hlookup⟩
  rintro rfl
  rw [h.named] at hlookup
  cases hlookup

theorem next_of_names (hab : rows.view.Names a b) : rows.Next a b := by
  obtain ⟨n, t, hentry⟩ := hab
  obtain ⟨e, hlookup, rfl, -⟩ := entry_of_view hentry
  have he := h.listed_of_lookup hlookup
  exact ⟨.ns a n, mem_listedNames.mpr ⟨e, he⟩, rfl, listedInode_of he⟩

theorem path_iff : ReflTransGen rows.Next a b ↔
      ReflTransGen rows.view.Names a b :=
  ⟨ReflTransGen.mono (fun _ _ hab => names_of_next hab) _ _,
    ReflTransGen.mono (fun _ _ hab => h.next_of_names hab) _ _⟩

/-- A file has one name. -/
theorem one_name (hrow : rows.HasInode id row)
    (hfile : row.asV2.type ≠ .directory) : ∃ x, rows.view.Links id [x] := by
  have htype : row.asV1.type ≠ .directory := by
    rw [← asV2_type]
    exact hfile
  obtain ⟨links, hlinks, hlength⟩ := h.sound.tree.counted id _ _ (view_inode hrow) htype
  rw [← asV2_nlink, h.single id row hrow hfile] at hlength
  obtain ⟨x, rfl⟩ := List.length_eq_one_iff.mp hlength
  exact ⟨x, hlinks⟩

end

variable {e : DirEntry}

/-- Two names of one file are one. -/
theorem name_unique (h : Placed R rows) {k' : Key} {e' : DirEntry} (he : rows.listed k = some e)
    (he' : rows.listed k' = some e') (hfile : e.type ≠ .directory)
    (hsame : e.inodeID = e'.inodeID) : k = k' := by
  obtain ⟨row, hrow, htype⟩ := h.sound.row_of_listed he
  rw [← htype] at hfile
  obtain ⟨x, hlinks⟩ := h.one_name hrow hfile
  obtain ⟨p, n, rfl, -, hlookup⟩ := listed_eq_some.mp he
  obtain ⟨p', n', rfl, -, hlookup'⟩ := listed_eq_some.mp he'
  have hmem : (p, n) ∈ [x] := (hlinks.mem_iff (p, n)).mpr ⟨_, view_entry hlookup⟩
  have hmem' : (p', n') ∈ [x] := by
    refine (hlinks.mem_iff (p', n')).mpr ⟨e'.type, ?_⟩
    rw [hsame]
    exact view_entry hlookup'
  obtain ⟨rfl, rfl⟩ :=
    Prod.mk.inj ((List.mem_singleton.mp hmem).trans (List.mem_singleton.mp hmem').symm)
  rfl

/-- A file of a bucket has a name below the root of the bucket. -/
theorem exists_name (h : Placed R rows) (honly : ∀ r, R r → rows.bucketRoot r = b → r = b)
    (hrow : rows.HasInode id row) (hfile : row.asV2.type ≠ .directory)
    (hroot : row.asV2.bucketRoot = b) :
    ∃ k e, k ∈ rows.below b ∧ rows.listed k = some e ∧ e.inodeID = id := by
  obtain ⟨⟨p, n⟩, hlinks⟩ := h.one_name hrow hfile
  obtain ⟨t, hentry⟩ := (hlinks.mem_iff (p, n)).mp (List.mem_singleton_self _)
  obtain ⟨e, hlookup, hid, -⟩ := entry_of_view hentry
  have he := h.listed_of_lookup hlookup
  obtain ⟨nlink, hdir⟩ := h.sound.tree.dirs p n id t hentry
  obtain ⟨r, hr, hpath⟩ := h.sound.tree.reached p (by rw [hdir]; exact some_ne_none _)
  have hrb : r = b := by
    refine honly r hr ?_
    rw [← h.bucketRoot_of_path hpath, ← h.inherits p n e hlookup, hid, bucketRoot_of_lookup hrow,
      hroot]
  rw [hrb] at hpath
  exact ⟨.ns p n, e, EdgeSum.mem_below.mpr
    ⟨mem_listedNames.mpr ⟨e, he⟩, h.path_iff.mpr hpath⟩, he, hid⟩

/-- A name below the root of a bucket is one of a file of the bucket. -/
theorem bucketRoot_of_below (h : Placed R rows) (hself : rows.bucketRoot b = b)
    (he : rows.listed k = some e) (hk : k ∈ rows.below b) : rows.bucketRoot e.inodeID = b := by
  obtain ⟨-, hpath⟩ := EdgeSum.mem_below.mp hk
  obtain ⟨p, n, rfl, -, hlookup⟩ := listed_eq_some.mp he
  have habove : rows.bucketRoot p = rows.bucketRoot b := h.bucketRoot_of_path (h.path_iff.mp hpath)
  rw [h.inherits p n e hlookup, habove, hself]

/-- What the names below the root of a bucket count is what the files of the bucket count. -/
theorem sum_below_eq (h : Placed R rows) (hsizes : ∀ id row, rows.HasInode id row →
      row.asV2.type ≠ .directory → rows.extentBytesForInode row.asV2 = row.asV2.size)
    (hself : rows.bucketRoot b = b) (honly : ∀ r, R r → rows.bucketRoot r = b → r = b) :
    ∑ k ∈ rows.below b, rows.nameUsage k = rows.filesUsage b := by
  have hfound : ∀ k, k ∈ rows.below b →
      rows.nameUsage k ≠ 0 → ∃ row, rows.lookup (.inode (rows.listedInode k)) =
        some (.inode row) ∧ rows.nameUsage k = rows.fileUsage b (.inode (rows.listedInode k)) := by
    intro k hk hne
    obtain ⟨e, he, hfile⟩ := exists_entry_of_nameUsage hne
    obtain ⟨row, hrow, htype⟩ := h.sound.row_of_listed he
    have hroot : row.asV2.bucketRoot = b := by
      rw [← bucketRoot_of_lookup hrow]
      exact h.bucketRoot_of_below hself he hk
    have hfile' : row.asV2.type ≠ .directory := by
      rw [htype]
      exact hfile
    rw [listedInode_of he]
    refine ⟨row, hrow, ?_⟩
    rw [nameUsage_file he hfile, fileUsage_of_lookup hrow, if_pos ⟨hfile', hroot⟩,
      usedBytes_of_lookup hrow, hsizes _ row hrow hfile']
  refine sum_bij_ne_zero (fun k _ _ => .inode (rows.listedInode k)) ?_ ?_ ?_ ?_
  · intro k hk hne
    obtain ⟨row, hrow, -⟩ := hfound k hk hne
    exact mem_keys_of_lookup hrow
  · intro k hk hne k' hk' hne' hsame
    obtain ⟨e, he, hfile⟩ := exists_entry_of_nameUsage hne
    obtain ⟨e', he', -⟩ := exists_entry_of_nameUsage hne'
    injection hsame with hid
    rw [listedInode_of he, listedInode_of he'] at hid
    exact h.name_unique he he' hfile hid
  · intro k _ hne
    obtain ⟨id, row, rfl, hrow, hfile, hroot⟩ := exists_row_of_fileUsage hne
    obtain ⟨k, e, hk, he, hid⟩ := h.exists_name honly hrow hfile hroot
    obtain ⟨row', hrow', htype⟩ := h.sound.row_of_listed he
    rw [hid] at hrow'
    obtain rfl := inode_unique hrow hrow'
    have hname : rows.nameUsage k ≠ 0 := by
      rw [nameUsage_file he (htype ▸ hfile)]
      exact fun hzero => one_ne_zero (congrArg Prod.snd hzero)
    exact ⟨k, hk, hname, by rw [listedInode_of he, hid]⟩
  · intro k hk hne
    obtain ⟨row, -, hsame⟩ := hfound k hk hne
    exact hsame

end Placed

end Files

end Nufs.Metadata
