/-
Directories and files as a forest, by names.

What the rows say is put as two maps: what a name in a directory stands for, and what an
inode is and how many links it counts.  A forest is kept by giving a name to a new node or
to a file, by taking a name away from a file or an empty directory, and by moving a name
to a directory that is not below what it names.
-/
import Nufs.Lib.Reach
import Nufs.Metadata.Types

namespace Nufs.Metadata

open Relation Reach List Option

/-- What names stand for, and what inodes are. -/
structure View where
  entry : InodeID → List Char → Option (InodeID × FileType)
  inode : InodeID → Option (FileType × UInt32)

namespace View

/-- A directory has a name for the inode. -/
def Names (v : View) (p c : InodeID) : Prop := ∃ n t, v.entry p n = some (c, t)

/-- The inode is a directory. -/
def IsDir (v : View) (p : InodeID) : Prop := ∃ nlink, v.inode p = some (.directory, nlink)

variable {v : View} {p c : InodeID}

theorem IsDir.ne_none (h : v.IsDir p) : v.inode p ≠ none := by
  obtain ⟨k, hk⟩ := h
  rw [hk]
  exact some_ne_none _

theorem IsDir.ne_file {t : FileType} {nlink : UInt32} (h : v.IsDir p)
    (hc : v.inode c = some (t, nlink)) (ht : t ≠ .directory) : p ≠ c := by
  rintro rfl
  obtain ⟨k, hk⟩ := h
  rw [hc] at hk
  exact ht (Prod.mk.inj (some.inj hk)).1

/-- All names of a file. -/
structure Links (v : View) (c : InodeID) (links : List (InodeID × List Char)) : Prop where
  nodup : links.Nodup
  mem_iff : ∀ x, x ∈ links ↔ ∃ t, v.entry x.1 x.2 = some (c, t)

theorem Links.congr {v v' : View} {links : List (InodeID × List Char)}
    (h : v.Links c links)
    (hsame : ∀ p n t, v'.entry p n = some (c, t) ↔ v.entry p n = some (c, t)) :
    v'.Links c links := by
  refine ⟨h.nodup, fun x => ?_⟩
  rw [h.mem_iff]
  exact exists_congr fun t => (hsame x.1 x.2 t).symm

end View

/-- Names and inodes make a forest with these roots. -/
structure Tree (R : InodeID → Prop) (v : View) : Prop where
  /-- Names are in directories. -/
  dirs : ∀ p n c t, v.entry p n = some (c, t) → v.IsDir p
  /-- A name stands for an inode of its type. -/
  kinds : ∀ p n c t, v.entry p n = some (c, t) → ∃ nlink, v.inode c = some (t, nlink)
  roots : ∀ r, R r → v.IsDir r
  unnamed : ∀ p n c t, v.entry p n = some (c, t) → ¬ R c
  /-- A directory has one name. -/
  once : ∀ p n p' n' c t, v.entry p n = some (c, .directory) → v.entry p' n' = some (c, t) →
    (p', n') = (p, n)
  /-- A file counts its names. -/
  counted : ∀ c t nlink, v.inode c = some (t, nlink) → t ≠ .directory →
    ∃ links, v.Links c links ∧ links.length = nlink.toNat
  reached : ∀ c, v.inode c ≠ none → Reached R v.Names c

namespace Tree

variable {R : InodeID → Prop} {v v' : View}

variable {c p q x : InodeID} {t s : FileType} {nlink : UInt32} {a b : Option (FileType × UInt32)}
  {n m : List Char}

/-- Nothing is in a file. -/
theorem leaf (h : Tree R v) (hc : v.inode c = some (t, nlink)) (ht : t ≠ .directory) :
    ∀ y, ¬ v.Names c y := by
  rintro y ⟨n, s, hy⟩
  exact (h.dirs c n y s hy).ne_file hc ht rfl

theorem parent_unique (h : Tree R v) {a b d : InodeID} (hac : v.Names a c) (hbc : v.Names b c)
    (hcd : v.Names c d) : a = b := by
  obtain ⟨n, t, hn⟩ := hac
  obtain ⟨m, s, hm⟩ := hbc
  obtain ⟨k, u, hk⟩ := hcd
  obtain ⟨nlink, hdir⟩ := h.dirs c k d u hk
  obtain ⟨nlink', hc⟩ := h.kinds a n c t hn
  rw [hdir] at hc
  cases hc
  exact (Prod.mk.inj (h.once a n b m c s hn hm)).1.symm

/-- No inode is below itself. -/
theorem acyclic (h : Tree R v) (x : InodeID) : ¬ TransGen v.Names x x := by
  intro hcycle
  obtain ⟨y, ⟨n, t, hy⟩, -⟩ := TransGen.head'_iff.mp hcycle
  refine (h.reached x (h.dirs x n y t hy).ne_none).acyclic ?_ ?_ hcycle
  · rintro a r hr ⟨m, s, hm⟩
    exact h.unnamed a m r s hm hr
  · intro a b c d hac hbc hcd
    exact h.parent_unique hac hbc hcd

/-- The inode is as it was, or a directory as before. -/
def SameKind (a b : Option (FileType × UInt32)) : Prop :=
  b = a ∨ ∃ nlink nlink', a = some (.directory, nlink) ∧ b = some (.directory, nlink')

theorem SameKind.kept (h : SameKind a b) (ha : a = some (t, nlink)) :
    ∃ nlink', b = some (t, nlink') := by
  rcases h with rfl | ⟨k, k', hk, hb⟩
  · exact ⟨nlink, ha⟩
  · rw [ha] at hk
    cases hk
    exact ⟨k', hb⟩

theorem SameKind.file (h : SameKind a b) (hb : b = some (t, nlink)) (ht : t ≠ .directory) :
    a = some (t, nlink) := by
  rcases h with rfl | ⟨k, k', -, hk⟩
  · exact hb
  · rw [hb] at hk
    exact absurd (Prod.mk.inj (some.inj hk)).1 ht

theorem SameKind.ne_none (h : SameKind a b) (hb : b ≠ none) : a ≠ none := by
  rcases h with rfl | ⟨k, k', hk, -⟩
  · exact hb
  · rw [hk]
    exact some_ne_none _

/-! ### A name for a new node -/

/-- A name that was free stands for an inode. -/
structure Gains (v v' : View) (p : InodeID) (n : List Char) (c : InodeID) (t : FileType) :
    Prop where
  name_free : v.entry p n = none
  entry : v'.entry p n = some (c, t)
  entries : ∀ q m, (q, m) ≠ (p, n) → v'.entry q m = v.entry q m

section

variable (hgain : Gains v v' p n c t)
include hgain

theorem Gains.entry_cases (hq : v'.entry q m = some (x, s)) :
    ((q, m) = (p, n) ∧ x = c ∧ s = t) ∨ v.entry q m = some (x, s) := by
  by_cases hkey : (q, m) = (p, n)
  · cases hkey
    rw [hgain.entry] at hq
    cases hq
    exact .inl ⟨rfl, rfl, rfl⟩
  · rw [hgain.entries q m hkey] at hq
    exact .inr hq

theorem Gains.keeps (hq : v.entry q m = some (x, s)) :
    v'.entry q m = some (x, s) := by
  rw [hgain.entries, hq]
  intro hkey
  cases hkey
  rw [hgain.name_free] at hq
  cases hq

/-- The other inodes keep their names. -/
theorem Gains.links {links : List (InodeID × List Char)} (hxc : x ≠ c)
    (h : v.Links x links) : v'.Links x links := by
  refine h.congr fun q m u => ⟨fun hq => ?_, hgain.keeps⟩
  rcases hgain.entry_cases hq with ⟨-, hx, -⟩ | hold
  · exact absurd hx hxc
  · exact hold

/-- The names of what gets one. -/
theorem Gains.links_cons {links : List (InodeID × List Char)}
    (h : v.Links c links) : v'.Links c ((p, n) :: links) := by
  have hnot : (p, n) ∉ links := by
    rw [h.mem_iff]
    rintro ⟨u, hu⟩
    rw [hgain.name_free] at hu
    cases hu
  refine ⟨nodup_cons.mpr ⟨hnot, h.nodup⟩, fun y => ?_⟩
  rw [mem_cons, h.mem_iff]
  constructor
  · rintro (rfl | ⟨u, hu⟩)
    · exact ⟨t, hgain.entry⟩
    · exact ⟨u, hgain.keeps hu⟩
  · rintro ⟨u, hu⟩
    rcases hgain.entry_cases hu with ⟨hkey, -, -⟩ | hold
    · exact .inl hkey
    · exact .inr ⟨u, hold⟩

theorem Gains.names (a b : InodeID) (hab : v.Names a b) :
    v'.Names a b := by
  obtain ⟨m, s, hm⟩ := hab
  exact ⟨m, s, hgain.keeps hm⟩

end

/-- A new node under a name that was free. -/
structure Creates (v v' : View) (p : InodeID) (n : List Char) (c : InodeID) (t : FileType)
    (nlink : UInt32) : Prop extends Gains v v' p n c t where
  node_free : v.inode c = none
  inode : v'.inode c = some (t, nlink)
  inodes : ∀ x, x ≠ c → SameKind (v.inode x) (v'.inode x)

theorem Creates.unnamed_before (h : Tree R v) (hnew : Creates v v' p n c t nlink) :
    v.entry q m ≠ some (c, s) := by
  intro hq
  obtain ⟨k, hk⟩ := h.kinds q m c s hq
  rw [hnew.node_free] at hk
  cases hk

theorem Creates.isDir (hnew : Creates v v' p n c t nlink) (hq : v.IsDir q) : v'.IsDir q := by
  obtain ⟨k, hk⟩ := hq
  have hne : q ≠ c := by
    rintro rfl
    rw [hnew.node_free] at hk
    cases hk
  exact (hnew.inodes q hne).kept hk

theorem create (h : Tree R v) (hnew : Creates v v' p n c t nlink) (hdir : v.IsDir p)
    (hlink : t ≠ .directory → nlink = 1) : Tree R v' where
  dirs := by
    intro q m x s hq
    rcases hnew.entry_cases hq with ⟨hkey, -, -⟩ | hold
    · rw [(Prod.mk.inj hkey).1]
      exact hnew.isDir hdir
    · exact hnew.isDir (h.dirs q m x s hold)
  kinds := by
    intro q m x s hq
    rcases hnew.entry_cases hq with ⟨-, rfl, rfl⟩ | hold
    · exact ⟨nlink, hnew.inode⟩
    · obtain ⟨k, hk⟩ := h.kinds q m x s hold
      have hne : x ≠ c := by
        rintro rfl
        exact Creates.unnamed_before h hnew hold
      exact (hnew.inodes x hne).kept hk
  roots := fun r hr => hnew.isDir (h.roots r hr)
  unnamed := by
    intro q m x s hq hroot
    rcases hnew.entry_cases hq with ⟨-, rfl, -⟩ | hold
    · obtain ⟨k, hk⟩ := h.roots x hroot
      rw [hnew.node_free] at hk
      cases hk
    · exact h.unnamed q m x s hold hroot
  once := by
    intro q m q' m' x s hq hq'
    rcases hnew.entry_cases hq with ⟨hkey, rfl, -⟩ | hold
    · rcases hnew.entry_cases hq' with ⟨hkey', -, -⟩ | hold'
      · rw [hkey, hkey']
      · exact absurd hold' (Creates.unnamed_before h hnew)
    · rcases hnew.entry_cases hq' with ⟨-, rfl, -⟩ | hold'
      · exact absurd hold (Creates.unnamed_before h hnew)
      · exact h.once q m q' m' x s hold hold'
  counted := by
    intro x s k hx hs
    by_cases hxc : x = c
    · subst hxc
      rw [hnew.inode] at hx
      cases hx
      refine ⟨[(p, n)], hnew.links_cons ⟨nodup_nil, fun y => iff_of_false not_mem_nil ?_⟩, ?_⟩
      · rintro ⟨s, hy⟩
        exact Creates.unnamed_before h hnew hy
      · rw [hlink hs]
        rfl
    · obtain ⟨links, hlinks, hlen⟩ := h.counted x s k ((hnew.inodes x hxc).file hx hs) hs
      exact ⟨links, hnew.links hxc hlinks, hlen⟩
  reached := by
    intro x hx
    by_cases hxc : x = c
    · subst hxc
      exact ((h.reached p hdir.ne_none).mono hnew.names).step ⟨n, t, hnew.entry⟩
    · exact (h.reached x ((hnew.inodes x hxc).ne_none hx)).mono hnew.names

/-! ### Another name for a file -/

theorem nlink_succ (h : nlink + 1 ≠ 0) : (nlink + 1).toNat = nlink.toNat + 1 := by
  have hne : (nlink + 1).toNat ≠ 0 := fun hzero => h (UInt32.toNat_inj.mp hzero)
  rw [UInt32.toNat_add] at hne ⊢
  have hone : (1 : UInt32).toNat = 1 := rfl
  have hlt := nlink.toNat_lt
  omega

theorem link (h : Tree R v) (hgain : Gains v v' p n c t) (hdir : v.IsDir p) (ht : t ≠ .directory)
    (hc : v.inode c = some (t, nlink)) (hc' : v'.inode c = some (t, nlink + 1))
    (hwrap : nlink + 1 ≠ 0) (hinodes : ∀ x, x ≠ c → v'.inode x = v.inode x) : Tree R v' := by
  have hisDir : ∀ {q}, v.IsDir q → v'.IsDir q := by
    intro q hq
    obtain ⟨k, hk⟩ := id hq
    exact ⟨k, (hinodes q (hq.ne_file hc ht)).trans hk⟩
  have hkind : ∀ {q m x s}, v'.entry q m = some (x, s) → ∃ k, v.inode x = some (s, k) := by
    intro q m x s hq
    rcases hgain.entry_cases hq with ⟨-, rfl, rfl⟩ | hold
    · exact ⟨nlink, hc⟩
    · exact h.kinds q m x s hold
  refine ⟨?_, ?_, fun r hr => hisDir (h.roots r hr), ?_, ?_, ?_, ?_⟩
  · intro q m x s hq
    rcases hgain.entry_cases hq with ⟨hkey, -, -⟩ | hold
    · rw [(Prod.mk.inj hkey).1]
      exact hisDir hdir
    · exact hisDir (h.dirs q m x s hold)
  · intro q m x s hq
    obtain ⟨k, hk⟩ := hkind hq
    by_cases hxc : x = c
    · subst hxc
      rw [hc] at hk
      cases hk
      exact ⟨nlink + 1, hc'⟩
    · exact ⟨k, (hinodes x hxc).trans hk⟩
  · intro q m x s hq hroot
    rcases hgain.entry_cases hq with ⟨-, rfl, -⟩ | hold
    · exact (h.roots x hroot).ne_file hc ht rfl
    · exact h.unnamed q m x s hold hroot
  · intro q m q' m' x s hq hq'
    -- a directory is not the file that gets the name
    have hxc : x ≠ c := View.IsDir.ne_file (hkind hq) hc ht
    rcases hgain.entry_cases hq with ⟨-, hx, -⟩ | hold
    · exact absurd hx hxc
    · rcases hgain.entry_cases hq' with ⟨-, hx, -⟩ | hold'
      · exact absurd hx hxc
      · exact h.once q m q' m' x s hold hold'
  · intro x s k hx hs
    by_cases hxc : x = c
    · subst hxc
      rw [hc'] at hx
      cases hx
      obtain ⟨links, hlinks, hlen⟩ := h.counted x t nlink hc hs
      refine ⟨(p, n) :: links, hgain.links_cons hlinks, ?_⟩
      rw [length_cons, hlen, nlink_succ hwrap]
    · obtain ⟨links, hlinks, hlen⟩ := h.counted x s k ((hinodes x hxc).symm.trans hx) hs
      exact ⟨links, hgain.links hxc hlinks, hlen⟩
  · intro x hx
    have hlive : v.inode x ≠ none := by
      by_cases hxc : x = c
      · rw [hxc, hc]
        exact some_ne_none _
      · rw [← hinodes x hxc]
        exact hx
    exact (h.reached x hlive).mono hgain.names

/-! ### A name is taken away -/

/-- A name stands for nothing any more. -/
structure Loses (v v' : View) (p : InodeID) (n : List Char) : Prop where
  entry : v'.entry p n = none
  entries : ∀ q m, (q, m) ≠ (p, n) → v'.entry q m = v.entry q m

section

variable (hlose : Loses v v' p n)
include hlose

theorem Loses.before {e : InodeID × FileType}
    (hq : v'.entry q m = some e) : (q, m) ≠ (p, n) ∧ v.entry q m = some e := by
  have hkey : (q, m) ≠ (p, n) := by
    intro heq
    cases heq
    rw [hlose.entry] at hq
    cases hq
  exact ⟨hkey, (hlose.entries q m hkey).symm.trans hq⟩

theorem Loses.keeps (hp : v.entry p n = some (c, t))
    (hq : v.entry q m = some (x, s)) (hxc : x ≠ c) : v'.entry q m = some (x, s) := by
  rw [hlose.entries, hq]
  intro hkey
  cases hkey
  rw [hp] at hq
  exact hxc (Prod.mk.inj (some.inj hq)).1.symm

/-- Names of other inodes stay. -/
theorem Loses.names (hp : v.entry p n = some (c, t)) (a b : InodeID)
    (hbc : b ≠ c) (hab : v.Names a b) : v'.Names a b := by
  obtain ⟨m, s, hm⟩ := hab
  exact ⟨m, s, hlose.keeps hp hm hbc⟩

theorem Loses.links {links : List (InodeID × List Char)}
    (hp : v.entry p n = some (c, t)) (hxc : x ≠ c) (h : v.Links x links) : v'.Links x links :=
  h.congr fun _ _ _ => ⟨fun hq => (hlose.before hq).2, fun hq => hlose.keeps hp hq hxc⟩

end

/-- A file counts one more than its names without one of them. -/
theorem counted_erase (h : Tree R v) (hp : v.entry p n = some (c, t)) (ht : t ≠ .directory)
    (hc : v.inode c = some (t, nlink)) :
    ∃ links, v.Links c links ∧ (links.erase (p, n)).length = (nlink - 1).toNat := by
  obtain ⟨links, hlinks, hlen⟩ := h.counted c t nlink hc ht
  have hmem : (p, n) ∈ links := (hlinks.mem_iff _).mpr ⟨t, hp⟩
  have hle : 1 ≤ nlink := UInt32.le_iff_toNat_le.mpr (hlen ▸ length_pos_of_mem hmem)
  refine ⟨links, hlinks, ?_⟩
  rw [length_erase_of_mem hmem, hlen, UInt32.toNat_sub_of_le _ _ hle]
  rfl

/-- The names of a file without one of them. -/
theorem Loses.links_erase {links : List (InodeID × List Char)} (hlose : Loses v v' p n)
    (h : v.Links c links) : v'.Links c (links.erase (p, n)) := by
  refine ⟨h.nodup.erase _, fun y => ?_⟩
  rw [List.Nodup.mem_erase_iff h.nodup, h.mem_iff]
  constructor
  · rintro ⟨hkey, u, hu⟩
    exact ⟨u, (hlose.entries y.1 y.2 hkey).trans hu⟩
  · rintro ⟨u, hu⟩
    exact ⟨(hlose.before hu).1, u, (hlose.before hu).2⟩

theorem unlink (h : Tree R v) (hlose : Loses v v' p n) (hp : v.entry p n = some (c, t))
    (ht : t ≠ .directory) (hc : v.inode c = some (t, nlink))
    (hc' : v'.inode c = if nlink - 1 = 0 then none else some (t, nlink - 1))
    (hinodes : ∀ x, x ≠ c → v'.inode x = v.inode x) : Tree R v' := by
  have hleaf := h.leaf hc ht
  obtain ⟨links, hlinks, hlen⟩ := h.counted_erase hp ht hc
  have hisDir : ∀ {q}, v.IsDir q → q ≠ c ∧ v'.IsDir q := by
    intro q hq
    obtain ⟨k, hk⟩ := id hq
    have hne := hq.ne_file hc ht
    exact ⟨hne, k, (hinodes q hne).trans hk⟩
  have hkeep := hlose.names hp
  refine ⟨?_, ?_, fun r hr => (hisDir (h.roots r hr)).2, ?_, ?_, ?_, ?_⟩
  · intro q m x s hq
    exact (hisDir (h.dirs q m x s (hlose.before hq).2)).2
  · intro q m x s hq
    obtain ⟨k, hk⟩ := h.kinds q m x s (hlose.before hq).2
    by_cases hxc : x = c
    · subst hxc
      rw [hc] at hk
      cases hk
      -- the file has another name, so it stays
      have hmem : (q, m) ∈ links.erase (p, n) :=
        ((hlose.links_erase hlinks).mem_iff _).mpr ⟨t, hq⟩
      have hpos := length_pos_of_mem hmem
      rw [hc', if_neg fun hzero => ?_]
      · exact ⟨nlink - 1, rfl⟩
      · rw [hlen, hzero] at hpos
        cases hpos
    · exact ⟨k, (hinodes x hxc).trans hk⟩
  · intro q m x s hq
    exact h.unnamed q m x s (hlose.before hq).2
  · intro q m q' m' x s hq hq'
    exact h.once q m q' m' x s (hlose.before hq).2 (hlose.before hq').2
  · intro x s k hx hs
    by_cases hxc : x = c
    · subst hxc
      rw [hc'] at hx
      split at hx
      · cases hx
      · cases hx
        exact ⟨links.erase (p, n), hlose.links_erase hlinks, hlen⟩
    · obtain ⟨links, hlinks, hlen⟩ := h.counted x s k ((hinodes x hxc).symm.trans hx) hs
      exact ⟨links, hlose.links hp hxc hlinks, hlen⟩
  · intro x hx
    have havoid : ∀ y, v.inode y ≠ none → y ≠ c → Reached R v'.Names y := by
      intro y hy hyc
      exact (h.reached y hy).avoid (fun hpath => hyc (eq_of_leaf hleaf hpath)) hkeep
    by_cases hxc : x = c
    · subst hxc
      -- the file stays, so it has another name, in a directory that is reached
      have hmore : links.erase (p, n) ≠ [] := by
        intro hnil
        rw [hnil] at hlen
        exact hx (hc'.trans (if_pos (UInt32.toNat_inj.mp hlen.symm)))
      obtain ⟨y, hy⟩ := exists_mem_of_ne_nil _ hmore
      obtain ⟨u, hu⟩ := ((hlose.links_erase hlinks).mem_iff y).mp hy
      have hdir := h.dirs _ _ _ _ (hlose.before hu).2
      exact (havoid y.1 hdir.ne_none (hisDir hdir).1).step ⟨y.2, u, hu⟩
    · rw [hinodes x hxc] at hx
      exact havoid x hx hxc

/-- A directory that is empty goes with its name. -/
theorem rmDir (h : Tree R v) (hlose : Loses v v' p n) (hp : v.entry p n = some (c, .directory))
    (hempty : ∀ m, v.entry c m = none) (hc' : v'.inode c = none)
    (hinodes : ∀ x, x ≠ c → SameKind (v.inode x) (v'.inode x)) : Tree R v' := by
  have hleaf : ∀ y, ¬ v.Names c y := by
    rintro y ⟨m, s, hm⟩
    rw [hempty m] at hm
    cases hm
  have hroot : ∀ r, R r → r ≠ c := by
    rintro r hr rfl
    exact h.unnamed p n r .directory hp hr
  -- the directory has no other name
  have hnamed : ∀ {q m x s}, v'.entry q m = some (x, s) → x ≠ c := by
    rintro q m x s hq rfl
    obtain ⟨hkey, hold⟩ := hlose.before hq
    exact hkey (h.once p n q m x s hp hold)
  refine ⟨?_, ?_, ?_, ?_, ?_, ?_, ?_⟩
  · intro q m x s hq
    obtain ⟨-, hold⟩ := hlose.before hq
    have hqc : q ≠ c := by
      rintro rfl
      exact hleaf x ⟨m, s, hold⟩
    obtain ⟨k, hk⟩ := h.dirs q m x s hold
    exact (hinodes q hqc).kept hk
  · intro q m x s hq
    obtain ⟨k, hk⟩ := h.kinds q m x s (hlose.before hq).2
    exact (hinodes x (hnamed hq)).kept hk
  · intro r hr
    obtain ⟨k, hk⟩ := h.roots r hr
    exact (hinodes r (hroot r hr)).kept hk
  · intro q m x s hq
    exact h.unnamed q m x s (hlose.before hq).2
  · intro q m q' m' x s hq hq'
    exact h.once q m q' m' x s (hlose.before hq).2 (hlose.before hq').2
  · intro x s k hx hs
    have hxc : x ≠ c := by
      rintro rfl
      rw [hc'] at hx
      cases hx
    obtain ⟨links, hlinks, hlen⟩ := h.counted x s k ((hinodes x hxc).file hx hs) hs
    exact ⟨links, hlose.links hp hxc hlinks, hlen⟩
  · intro x hx
    have hxc : x ≠ c := by
      rintro rfl
      exact hx hc'
    exact (h.reached x ((hinodes x hxc).ne_none hx)).avoid
      (fun hpath => hxc (eq_of_leaf hleaf hpath)) (hlose.names hp)

/-! ### A name moves -/

/-- A name is taken away and another one, that was free, stands for the same. -/
structure Moves (v v' : View) (p : InodeID) (n : List Char) (q : InodeID) (m : List Char)
    (c : InodeID) (t : FileType) : Prop where
  source : v.entry p n = some (c, t)
  free : v.entry q m = none
  gone : v'.entry p n = none
  there : v'.entry q m = some (c, t)
  entries : ∀ a k, (a, k) ≠ (p, n) → (a, k) ≠ (q, m) → v'.entry a k = v.entry a k
  inodes : ∀ x, v'.inode x = v.inode x

/-- A move takes the one name away and gives the other one. -/
theorem Moves.between (hmove : Moves v v' p n q m c t) :
    ∃ w, Loses v w p n ∧ Gains w v' q m c t := by
  have hne : (q, m) ≠ (p, n) := by
    intro heq
    cases heq
    cases hmove.free.symm.trans hmove.source
  refine ⟨{ v with entry := fun a k => if (a, k) = (p, n) then none else v.entry a k },
    ⟨if_pos rfl, fun a k hold => if_neg hold⟩, (if_neg hne).trans hmove.free, hmove.there, ?_⟩
  intro a k hnew
  show _ = if _ then _ else _
  split_ifs with hold
  · cases hold
    exact hmove.gone
  · exact hmove.entries a k hold hnew

theorem move (h : Tree R v) (hmove : Moves v v' p n q m c t) (hdir : v.IsDir q)
    (hbelow : ¬ ReflTransGen v.Names c q) : Tree R v' := by
  obtain ⟨w, hlose, hgain⟩ := hmove.between
  have hcases : ∀ {a k x s}, v'.entry a k = some (x, s) →
      ((a, k) = (q, m) ∧ x = c ∧ s = t) ∨ ((a, k) ≠ (p, n) ∧ v.entry a k = some (x, s)) :=
    fun ha => (hgain.entry_cases ha).imp_right hlose.before
  have hnames : ∀ a b, b ≠ c → v.Names a b → v'.Names a b :=
    fun a b hbc hab => hgain.names a b (hlose.names hmove.source a b hbc hab)
  have hisDir : ∀ {a}, v.IsDir a → v'.IsDir a := by
    rintro a ⟨k, hk⟩
    exact ⟨k, (hmove.inodes a).trans hk⟩
  refine ⟨?_, ?_, fun r hr => hisDir (h.roots r hr), ?_, ?_, ?_, ?_⟩
  · intro a k x s ha
    rcases hcases ha with ⟨hkey, -, -⟩ | ⟨-, hold⟩
    · rw [(Prod.mk.inj hkey).1]
      exact hisDir hdir
    · exact hisDir (h.dirs a k x s hold)
  · intro a k x s ha
    rw [hmove.inodes x]
    rcases hcases ha with ⟨-, rfl, rfl⟩ | ⟨-, hold⟩
    · exact h.kinds p n x s hmove.source
    · exact h.kinds a k x s hold
  · intro a k x s ha
    rcases hcases ha with ⟨-, rfl, -⟩ | ⟨-, hold⟩
    · exact h.unnamed p n x t hmove.source
    · exact h.unnamed a k x s hold
  · intro a k a' k' x s ha ha'
    rcases hcases ha with ⟨hkey, rfl, ht⟩ | ⟨hkey, hold⟩
    · rcases hcases ha' with ⟨hkey', -, -⟩ | ⟨hkey', hold'⟩
      · rw [hkey, hkey']
      · exact absurd (h.once p n a' k' x s (ht ▸ hmove.source) hold') hkey'
    · rcases hcases ha' with ⟨-, rfl, -⟩ | ⟨-, hold'⟩
      · exact absurd (h.once a k p n x t hold hmove.source).symm hkey
      · exact h.once a k a' k' x s hold hold'
  · intro x s nlink hx hs
    rw [hmove.inodes x] at hx
    obtain ⟨links, hlinks, hlen⟩ := h.counted x s nlink hx hs
    by_cases hxc : x = c
    · subst hxc
      have hmem : (p, n) ∈ links := (hlinks.mem_iff _).mpr ⟨t, hmove.source⟩
      have hpos := length_pos_of_mem hmem
      refine ⟨(q, m) :: links.erase (p, n), hgain.links_cons (hlose.links_erase hlinks), ?_⟩
      rw [length_cons, length_erase_of_mem hmem, ← hlen]
      omega
    · exact ⟨links, hgain.links hxc (hlose.links hmove.source hxc hlinks), hlen⟩
  · intro x hx
    rw [hmove.inodes x] at hx
    have hc : Reached R v'.Names c :=
      ((h.reached q hdir.ne_none).avoid hbelow hnames).step ⟨m, t, hmove.there⟩
    exact (h.reached x hx).rejoin hc hnames

end Tree

end Nufs.Metadata
