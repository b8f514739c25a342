/-
A directory read page by page is listed whole.

Every listing is a part of one list: the entries of the rows under the directory, in the
order of their names.  `ReadDir` gives the front of it, `ReadDirFrom` the front of what is
behind the cursor, so that pages that follow each other join up to the whole.
-/
import Nufs.Metadata.ReadDir

namespace Nufs.Metadata.Pebble

open ByteOrder List

section
variable (decode : List UInt8 → Option DirEntry) (db : Table) (parent : UInt64)

/-! ### The entries of a directory -/

/-- The entry of a row. -/
def entryOf (r : Row) : Option DirEntry :=
  let name := trimPrefix r.1 (nsPrefix parent)
  if name = [] then none else (decode r.2).map fun entry => { entry with name := name }

/-- The entries of rows. -/
def entriesOf (rows : List Row) : List DirEntry := rows.filterMap (entryOf decode parent)

/-- The rows of a directory. -/
def Table.under : List Row := db.newIter (nsPrefix parent) (upperBound (nsPrefix parent))

/-- The entries of a directory. -/
def listing : List DirEntry := entriesOf decode parent (db.under parent)

/-- The entry stands in the directory. -/
def Listed (e : DirEntry) : Prop :=
  e.name ≠ [] ∧ ∃ val entry, (nsPrefix parent ++ e.name, val) ∈ db.rows ∧
    decode val = some entry ∧ e = { entry with name := e.name }

variable {decode db parent}

theorem rank_append_lt (front a b : List UInt8) :
    rank (front ++ a) < rank (front ++ b) ↔ rank a < rank b := by
  induction front with
  | nil => rfl
  | cons c front ih =>
    have hcons : ∀ bs, rank (c :: bs) = c.toNat :: rank bs := fun _ => rfl
    rw [cons_append, cons_append, hcons, hcons, cons_lt_cons_iff, ih]
    simp

theorem inRange_nsPrefix (bs : List UInt8) :
    inRange (nsPrefix parent) (upperBound (nsPrefix parent)) bs = true ↔ nsPrefix parent <+: bs :=
  inRange_upperBound _ 47 (by decide) bs

theorem mem_under {r : Row} : r ∈ db.under parent ↔ r ∈ db.rows ∧ nsPrefix parent <+: r.1 := by
  rw [Table.under, Table.newIter, mem_filter, inRange_nsPrefix]

theorem sorted_under : (db.under parent).Pairwise fun r r' => rank r.1 < rank r'.1 :=
  db.sorted.filter _

theorem entryOf_eq_some {name val : List UInt8} {e : DirEntry} :
    entryOf decode parent (nsPrefix parent ++ name, val) = some e ↔ name ≠ [] ∧ e.name = name ∧
        ∃ entry, decode val = some entry ∧ e = { entry with name := name } := by
  have htrim : trimPrefix (nsPrefix parent ++ name) (nsPrefix parent) = name := by
    simp [trimPrefix]
  simp only [entryOf, htrim]
  by_cases hname : name = []
  · simp [hname]
  · rw [if_neg hname, Option.map_eq_some_iff]
    constructor
    · rintro ⟨entry, hval, rfl⟩
      exact ⟨hname, rfl, entry, hval, rfl⟩
    · rintro ⟨-, -, entry, hval, he⟩
      exact ⟨entry, hval, he.symm⟩

theorem mem_listing {e : DirEntry} : e ∈ listing decode db parent ↔ Listed decode db parent e := by
  rw [listing, entriesOf, mem_filterMap]
  constructor
  · rintro ⟨⟨key, val⟩, hr, he⟩
    obtain ⟨hrow, name, rfl⟩ := mem_under.mp hr
    obtain ⟨hname, rfl, entry, hval, he⟩ := entryOf_eq_some.mp he
    exact ⟨hname, val, entry, hrow, hval, he⟩
  · rintro ⟨hname, val, entry, hrow, hval, he⟩
    exact ⟨_, mem_under.mpr ⟨hrow, _, rfl⟩, entryOf_eq_some.mpr ⟨hname, rfl, entry, hval, he⟩⟩

theorem sorted_listing :
    (listing decode db parent).Pairwise fun e e' => rank e.name < rank e'.name := by
  rw [listing, entriesOf, pairwise_filterMap]
  refine sorted_under.imp_of_mem ?_
  rintro ⟨key, val⟩ ⟨key', val'⟩ hr hr' hlt e he e' he'
  obtain ⟨-, name, rfl⟩ := mem_under.mp hr
  obtain ⟨-, name', rfl⟩ := mem_under.mp hr'
  obtain ⟨-, rfl, -⟩ := entryOf_eq_some.mp he
  obtain ⟨-, rfl, -⟩ := entryOf_eq_some.mp he'
  exact (rank_append_lt _ _ _).mp hlt

/-! ### The pages -/

theorem collect_eq (limit skipped : Nat) (rows : List Row) (entries : List DirEntry) :
    collect decode (nsPrefix parent) limit 0 rows skipped entries =
      entries ++ (entriesOf decode parent rows).take (limit - entries.length) := by
  induction rows generalizing entries with
  | nil => simp [collect, entriesOf]
  | cons r rows ih =>
    have hskip : ¬ (skipped : Int) < 0 := by omega
    rw [entriesOf, collect]
    by_cases hfull : limit ≤ entries.length
    · rw [if_pos hfull, Nat.sub_eq_zero_of_le hfull, take_zero, append_nil]
    · rw [if_neg hfull]
      by_cases hname : trimPrefix r.1 (nsPrefix parent) = []
      · rw [if_pos hname, ih, filterMap_cons_none (by simp [entryOf, hname]), entriesOf]
      · rw [if_neg hname, if_neg hskip]
        cases hval : decode r.2 with
        | none =>
          rw [filterMap_cons_none (by simp [entryOf, hval])]
          exact ih _
        | some entry =>
          have hleft : limit - entries.length = (limit - (entries.length + 1)) + 1 := by omega
          rw [filterMap_cons_some (by simp [entryOf, hname, hval]; rfl), hleft, take_succ_cons]
          exact (ih _).trans (by simp [entriesOf])

theorem newIter_eq (after : List UInt8) :
    db.newIter (nsPrefix parent ++ after) (upperBound (nsPrefix parent)) =
      (db.under parent).filter (rank (nsPrefix parent ++ after) ≤ rank ·.1) := by
  have hle : rank (nsPrefix parent) ≤ rank (nsPrefix parent ++ after) := by
    have hrange := (inRange_nsPrefix _).mpr (prefix_append (nsPrefix parent) after)
    exact of_decide_eq_true ((Bool.and_eq_true _ _).mp hrange).1
  rw [Table.under, Table.newIter, Table.newIter, filter_filter]
  refine filter_congr fun r _ => ?_
  by_cases hlower : rank (nsPrefix parent ++ after) ≤ rank r.1
  · simp [inRange, hlower, hle.trans hlower]
  · simp [inRange, hlower]

/-- The rows behind a cursor. -/
def Behind (db : Table) (parent : UInt64) (cursor : List UInt8) (rows : List Row) : Prop :=
  cursor = [] ∧ rows = db.under parent ∨ cursor ≠ [] ∧
    ∃ before val, db.under parent = before ++ (nsPrefix parent ++ cursor, val) :: rows

variable {cursor : List UInt8} {rows : List Row} (hrows : Behind db parent cursor rows)
include hrows

theorem readDirFrom_eq (limit : Int) : readDirFrom decode db parent cursor limit =
    (entriesOf decode parent rows).take (capLimit limit) := by
  rw [readDirFrom]
  rcases hrows with ⟨rfl, rfl⟩ | ⟨hcursor, before, val, hunder⟩
  · simp only [append_nil, ne_eq, not_true_eq_false, false_and, if_false]
    exact collect_eq _ _ _ _
  · have hsorted : (db.under parent).Pairwise _ := sorted_under
    rw [hunder, pairwise_append, pairwise_cons] at hsorted
    obtain ⟨-, ⟨hbehind, -⟩, hbefore⟩ := hsorted
    have hiter : db.newIter (nsPrefix parent ++ cursor) (upperBound (nsPrefix parent)) =
        (nsPrefix parent ++ cursor, val) :: rows := by
      rw [newIter_eq, hunder, filter_append, filter_eq_nil_iff.mpr, nil_append, filter_eq_self.mpr]
      · intro r hr
        rcases mem_cons.mp hr with rfl | hr
        · simp
        · simpa using (hbehind r hr).le
      · intro r hr
        simpa using hbefore r hr _ mem_cons_self
    simp only [hiter, List.head?_cons, Option.map_some, ne_eq, hcursor, not_false_eq_true, and_self,
      if_true, tail_cons]
    exact collect_eq _ _ _ _

/-- The rows behind the last entry of a page. -/
theorem Behind.next {front back : List DirEntry} {last : DirEntry}
    (hpage : entriesOf decode parent rows = front ++ last :: back) :
    ∃ rest, Behind db parent last.name rest ∧ entriesOf decode parent rest = back := by
  obtain ⟨l1, l2, rfl, -, hl2⟩ := filterMap_eq_append_iff.mp hpage
  obtain ⟨l3, ⟨key, val⟩, rest, rfl, -, hlast, hback⟩ := filterMap_eq_cons_iff.mp hl2
  obtain ⟨before, hunder⟩ : ∃ before, db.under parent = before ++ (key, val) :: rest := by
    rcases hrows with ⟨-, h⟩ | ⟨-, before, v, h⟩
    · exact ⟨l1 ++ l3, by rw [← h, append_assoc]⟩
    · exact ⟨before ++ (nsPrefix parent ++ cursor, v) :: (l1 ++ l3), by rw [h]; simp⟩
  have hmem : (key, val) ∈ db.under parent := by simp [hunder]
  obtain ⟨-, name, rfl⟩ := mem_under.mp hmem
  obtain ⟨hname, rfl, -⟩ := entryOf_eq_some.mp hlast
  exact ⟨rest, .inr ⟨hname, before, val, hunder⟩, hback⟩

theorem readdir_of_behind {pageSize : Int} {full : Nat} (hfull : 1 ≤ full)
    (hcap : full ≤ capLimit pageSize) {fuel : Nat} {entries : List DirEntry}
    (hfuel : (entriesOf decode parent rows).length < fuel) :
    readdir decode db parent pageSize full fuel cursor entries =
      some (entries ++ entriesOf decode parent rows) := by
  induction fuel generalizing cursor rows entries with
  | zero => omega
  | succ fuel ih =>
    rw [readdir, readDirFrom_eq hrows]
    generalize hall : entriesOf decode parent rows = all at hfuel ⊢
    by_cases hshort : (all.take (capLimit pageSize)).length < full
    · rw [if_pos hshort, take_of_length_le (by rw [length_take] at hshort; omega)]
    · rw [if_neg hshort]
      rcases eq_nil_or_concat' (all.take (capLimit pageSize)) with hnil | ⟨front, last, hpage⟩
      · rw [hnil, length_nil] at hshort
        omega
      · have hparts : all = front ++ last :: all.drop (capLimit pageSize) := by
          rw [append_cons, ← hpage, take_append_drop]
        obtain ⟨rest, hrest, hback⟩ := hrows.next (hall.trans hparts)
        have hlength := congrArg List.length hparts
        rw [length_append, length_cons] at hlength
        rw [hpage, List.getLast?_concat]
        refine (ih hrest (by rw [hback]; omega)).trans ?_
        rw [hback, ← hpage, append_assoc, take_append_drop]

end

section
variable (decode : List UInt8 → Option DirEntry) (db : Table) (parent : UInt64)

theorem readDir_eq (limit : Int) : readDir decode db parent 0 limit =
    (listing decode db parent).take (capLimit limit) :=
  collect_eq _ _ _ _

theorem length_listing_le : (listing decode db parent).length ≤ db.rows.length :=
  (length_filterMap_le _ _).trans (length_filter_le _ _)

/--
**A directory is listed whole.**  Whatever the page size, and wherever between one entry and
the most a page can hold a page counts as full, the pages join up to the entries of the
directory, each once and in the order of the names.  `ReadDir` gives the first of them, as
many as its capped limit.
-/
theorem readdir_lists (pageSize : Int) (full fuel : Nat) (hfull : 1 ≤ full)
    (hcap : full ≤ capLimit pageSize) (hfuel : db.rows.length < fuel) :
    ∃ entries, readdir decode db parent pageSize full fuel [] [] = some entries ∧
      (∀ e, e ∈ entries ↔ Listed decode db parent e) ∧
      entries.Pairwise (fun e e' => rank e.name < rank e'.name) ∧
      ∀ limit, readDir decode db parent 0 limit = entries.take (capLimit limit) :=
  ⟨_, readdir_of_behind (.inl ⟨rfl, rfl⟩) hfull hcap ((length_listing_le _ _ _).trans_lt hfuel),
    fun _ => mem_listing, sorted_listing, readDir_eq _ _ _⟩

end

/-- A directory of files with the names `a`, `aa`, `aaa` and so on. -/
def filled (n : Nat) : Table where
  rows := (List.range n).map fun i => (nsPrefix 1 ++ List.replicate (i + 1) 97, [])
  sorted := by
    rw [pairwise_map]
    refine pairwise_lt_range.imp ?_
    intro i j hij
    obtain ⟨k, rfl⟩ := Nat.exists_eq_add_of_lt hij
    have hlonger : i + k + 1 + 1 = (i + 1) + (k + 1) := by omega
    have hlt := rank_append_lt (List.replicate (i + 1) 97) [] (List.replicate (k + 1) 97)
    rw [append_nil, ← replicate_add, ← hlonger] at hlt
    exact (rank_append_lt _ _ _).mpr (hlt.mpr (nil_lt_cons _ _))

theorem readdir_lists_filled : ∃ entries,
    readdir (fun _ => some ⟨2, 0, []⟩) (filled 9000) 1 4096 4096 9001 [] [] = some entries ∧
      readDir (fun _ => some ⟨2, 0, []⟩) (filled 9000) 1 0 4096 = entries.take 4096 := by
  obtain ⟨entries, hrun, -, -, hread⟩ := readdir_lists (fun _ => some ⟨2, 0, []⟩) (filled 9000) 1
    4096 4096 9001 (by decide) (by decide) (by simp [filled])
  exact ⟨entries, hrun, hread 4096⟩

theorem le_length_listing_filled (n : Nat) :
    n ≤ (listing (fun _ => some ⟨2, 0, []⟩) (filled n) 1).length := by
  have hmem : ∀ e ∈ (List.range n).map fun i => ⟨2, 0, List.replicate (i + 1) 97⟩,
      e ∈ listing (fun _ => some ⟨2, 0, []⟩) (filled n) 1 := by
    intro e he
    obtain ⟨i, hi, rfl⟩ := mem_map.mp he
    exact mem_listing.mpr ⟨cons_ne_nil _ _, [], _, mem_map_of_mem hi, rfl, rfl⟩
  have hnodup : ((List.range n).map fun i =>
      (⟨2, 0, List.replicate (i + 1) 97⟩ : DirEntry)).Nodup :=
    nodup_range.map fun i j h => by simpa using congrArg (·.name.length) h
  simpa using (hnodup.subperm hmem).length_le

/-- `ReadDir` leaves out an entry of a directory of 10,001 that the pages have. -/
theorem readDir_truncates :
    readdir (fun _ => some ⟨2, 0, []⟩) (filled 10001) 1 4096 4096 10002 [] [] ≠
      some (readDir (fun _ => some ⟨2, 0, []⟩) (filled 10001) 1 0 0) := by
  have hread := readDir_eq (fun _ => some ⟨2, 0, []⟩) (filled 10001) 1 0
  have hcap : capLimit 0 = 10000 := rfl
  have hlength : (filled 10001).rows.length < 10002 := by simp [filled]
  rw [readdir_of_behind (.inl ⟨rfl, rfl⟩) (by decide) (by decide)
    ((length_listing_le _ _ _).trans_lt hlength), hread]
  intro h
  have hsame := congrArg List.length (Option.some.inj h)
  have hmore := le_length_listing_filled 10001
  rw [nil_append, length_take, hcap] at hsame
  rw [listing] at hmore hsame
  omega

end Nufs.Metadata.Pebble
