/-
What a restore leaves in the database.

A restore of a whole stream sets its rows over those that are there.  A restore of a
stream that breaks off has committed the full batches among the rows it read.  So the
database becomes the snapshot exactly if it had no other row, and a restore that fails
leaves it alone exactly if what was committed was there already.
-/
import Nufs.Lib.ExceptBind
import Nufs.Metadata.KvStream

namespace Nufs.Metadata.Pebble

open Layout Wire Wire.Reader ByteOrder List Finmap

/-! ### Items of the stream -/

section Items

variable {clean : Bool}

theorem extends_readSome (n : Nat) : (readSome clean n).Extends :=
  (extends_readFull n).ite (extends_readFull n)

theorem reads_readSome (bs : List UInt8) : (readSome clean bs.length).Reads bs bs := by
  rw [readSome]
  split_ifs
  · exact reads_readFull bs
  · exact reads_readFull bs

theorem extends_readNumber (width : Nat) : (readNumber clean width).Extends :=
  (extends_readSome width).bind fun bs => .pure (ofBE bs)

/-- A number is cut to the bytes it has. -/
theorem reads_readNumber_mod (width n : Nat) :
    (readNumber clean width).Reads (be width n) (n % 256 ^ width) := by
  have hsome : (readSome clean (be width n).length).Reads _ _ := reads_readSome (be width n)
  rw [length_be] at hsome
  refine hsome.map ?_
  rw [ofBE_be]
  exact .pure _

theorem reads_readNumber {width n : Nat} (hn : n < 256 ^ width) :
    (readNumber clean width).Reads (be width n) n := by
  have hread : (readNumber clean width).Reads _ _ := reads_readNumber_mod width n
  rwa [Nat.mod_eq_of_lt hn] at hread

theorem extends_readItem : (readItem clean).Extends := by
  refine (extends_readNumber 4).tag.bind fun klen => ?_
  refine .ite ?_ ?_
  · exact (extends_readNumber 8).tag.bind fun count => .pure _
  · refine (extends_readSome klen).tag.bind fun key => ?_
    have hvalue : (readBytesStream clean).Extends :=
      (extends_readNumber 4).bind fun n => extends_readSome n
    exact hvalue.tag.bind fun value => .pure _

theorem reads_row {r : Row} (hkey : r.1.length < 2 ^ 32 - 1) (hvalue : r.2.length < 2 ^ 32) :
    (readItem clean).Reads (writeRow r) (.row r) := by
  have hklen : r.1.length < 256 ^ 4 := by omega
  have hmark : r.1.length ≠ endMark := by
    rw [endMark]
    omega
  have hbytes : (readBytesStream clean).Reads (writeBytes r.2) r.2 :=
    (reads_readNumber hvalue).bind (reads_readSome r.2)
  rw [writeRow, writeBytes, append_assoc]
  refine (reads_readNumber hklen).tag.bind ?_
  rw [if_neg hmark]
  exact (reads_readSome r.1).tag.bind (hbytes.tag.map (.pure _))

/-- The number of rows is cut to eight bytes; nobody looks at it. -/
theorem reads_end (count : Nat) :
    (readItem clean).Reads (writeEnd count) (.last (count % 256 ^ 8)) := by
  refine (reads_readNumber (show endMark < 256 ^ 4 by decide)).tag.bind ?_
  rw [if_pos rfl]
  exact (reads_readNumber_mod 8 count).tag.map (.pure _)

/-- An item that lacks something at its end is not read. -/
theorem readItem_cut {bs cut missing : List UInt8} {item : Item}
    (hreads : (readItem clean).Reads bs item) (hcut : cut ++ missing = bs)
    (hmissing : missing ≠ []) : ∃ e, readItem clean cut = .error e :=
  ExceptBind.exists_error fun p => extends_readItem.cut_ne hreads hcut hmissing p.1 p.2

end Items

/-! ### Setting rows -/

variable (rows P : Rows)

theorem setRows_append (as bs : List Row) :
    setRows rows (as ++ bs) = setRows (setRows rows as) bs :=
  foldl_append

theorem setRows_cons (r : Row) (batch : List Row) :
    setRows rows (r :: batch) = setRows (rows.insert r.1 r.2) batch := rfl

variable {batch : List Row} {n : Nat} {stream : List UInt8} {z : Zstd}

theorem lookup_setRows_of_notMem {k : List UInt8} (h : ∀ r ∈ batch, r.1 ≠ k) :
    (setRows rows batch).lookup k = rows.lookup k := by
  induction batch generalizing rows with
  | nil => rfl
  | cons r batch ih =>
    rw [setRows_cons, ih _ fun r' hr' => h r' (mem_cons_of_mem r hr')]
    exact lookup_insert_of_ne _ fun heq => h r (.head _) heq.symm

variable {r : Row} {clean : Bool} {fuel : Nat} {tail : List UInt8} {rows : List Row}

/-- Rows with increasing keys are all there once they are set. -/
theorem lookup_setRows {rows : Rows} (hsorted : batch.Pairwise fun a b => rank a.1 < rank b.1)
    (hr : r ∈ batch) : (setRows rows batch).lookup r.1 = some r.2 := by
  induction batch generalizing rows with
  | nil => simp at hr
  | cons r' batch ih =>
    obtain ⟨hfirst, hsorted⟩ := pairwise_cons.mp hsorted
    rw [setRows_cons]
    by_cases hmem : r ∈ batch
    · exact ih hsorted hmem
    obtain rfl : r = r' := (mem_cons.mp hr).resolve_right hmem
    have hrest : ∀ r' ∈ batch, r'.1 ≠ r.1 := by
      intro r' hr' heq
      have hlt := hfirst r' hr'
      rw [heq] at hlt
      exact lt_irrefl _ hlt
    rw [lookup_setRows_of_notMem _ hrest]
    exact lookup_insert _

namespace Snapshot

variable (S : Snapshot)

/-- The database the snapshot was taken of. -/
def toRows : Rows := setRows ∅ S.rows

variable {S}

/-- The restored rows are those of the snapshot exactly if there were no others. -/
theorem setRows_eq_toRows_iff {P : Rows} :
    setRows P S.rows = S.toRows ↔ ∀ k ∈ P, ∃ r ∈ S.rows, r.1 = k := by
  constructor
  · intro heq k hk
    by_contra hnot
    have hfree : ∀ r ∈ S.rows, r.1 ≠ k := fun r hr hrk => hnot ⟨r, hr, hrk⟩
    have hleft := lookup_setRows_of_notMem P hfree
    rw [heq, toRows, lookup_setRows_of_notMem _ hfree, lookup_empty] at hleft
    exact lookup_eq_none.mp hleft.symm hk
  intro hsub
  refine ext_lookup fun k => ?_
  by_cases hk : ∃ r ∈ S.rows, r.1 = k
  · obtain ⟨r, hr, rfl⟩ := hk
    rw [lookup_setRows S.sorted hr, toRows, lookup_setRows S.sorted hr]
  · have hfree : ∀ r ∈ S.rows, r.1 ≠ k := fun r hr hrk => hk ⟨r, hr, hrk⟩
    rw [lookup_setRows_of_notMem _ hfree, toRows, lookup_setRows_of_notMem _ hfree,
      lookup_empty, lookup_eq_none]
    exact fun hmem => hk (hsub k hmem)

end Snapshot

/-- Rows with increasing keys change nothing exactly if they are there already. -/
theorem setRows_eq_self_iff {P : Rows} (hsorted : batch.Pairwise fun a b => rank a.1 < rank b.1) :
    setRows P batch = P ↔ ∀ r ∈ batch, P.lookup r.1 = some r.2 := by
  constructor
  · intro heq r hr
    rw [← heq]
    exact lookup_setRows hsorted hr
  intro hthere
  refine ext_lookup fun k => ?_
  by_cases hk : ∃ r ∈ batch, r.1 = k
  · obtain ⟨r, hr, rfl⟩ := hk
    rw [lookup_setRows hsorted hr, hthere r hr]
  · exact lookup_setRows_of_notMem P fun r hr hrk => hk ⟨r, hr, hrk⟩

/-! ### The loop -/

/-- The rows that are committed and the batch that is open, after one more row. -/
def afterRow (s : Rows × List Row) (r : Row) : Rows × List Row :=
  if restoreBatch ≤ (s.2 ++ [r]).length then (setRows s.1 (s.2 ++ [r]), []) else (s.1, s.2 ++ [r])

/-- How many rows of so many are committed: those in full batches. -/
def committedOf (n : Nat) : Nat := restoreBatch * (n / restoreBatch)

theorem restoreLoop_row {s : Rows × List Row} (hr : r.1.length < 2 ^ 32 - 1 ∧ r.2.length < 2 ^ 32) :
    restoreLoop clean (fuel + 1) s.1 s.2 (writeRow r ++ tail) =
      restoreLoop clean fuel (afterRow s r).1 (afterRow s r).2 tail := by
  rw [restoreLoop, reads_row hr.1 hr.2 tail, afterRow]
  by_cases hfull : restoreBatch ≤ (s.2 ++ [r]).length
  · simp only [if_pos hfull]
  · simp only [if_neg hfull]

theorem restoreLoop_rows (hrows : ∀ r ∈ rows, r.1.length < 2 ^ 32 - 1 ∧ r.2.length < 2 ^ 32)
    (s : Rows × List Row) :
    restoreLoop clean (fuel + rows.length) s.1 s.2 (rows.flatMap writeRow ++ tail) =
      restoreLoop clean fuel (rows.foldl afterRow s).1 (rows.foldl afterRow s).2 tail := by
  induction rows generalizing s with
  | nil => rfl
  | cons r rows ih =>
    rw [flatMap_cons, append_assoc, length_cons, ← Nat.add_assoc,
      restoreLoop_row (hrows r (.head _)), foldl_cons]
    exact ih (fun r' hr' => hrows r' (mem_cons_of_mem r hr')) _

/-- After some rows the full batches among them are committed, the rest waits. -/
theorem foldl_afterRow (rows : List Row) : rows.foldl afterRow (P, []) =
      (setRows P (rows.take (committedOf rows.length)), rows.drop (committedOf rows.length)) := by
  induction rows using List.reverseRecOn with
  | nil => rfl
  | append_singleton rows r ih =>
    have hle : committedOf rows.length ≤ rows.length := by
      unfold committedOf restoreBatch
      omega
    rw [foldl_append, ih, foldl_cons, foldl_nil, afterRow]
    have hwait : (rows.drop (committedOf rows.length) ++ [r]).length =
        rows.length - committedOf rows.length + 1 := by
      rw [length_append, length_drop, length_singleton]
    rw [hwait]
    by_cases hfull : restoreBatch ≤ rows.length - committedOf rows.length + 1
    · have hall : committedOf (rows ++ [r]).length = (rows ++ [r]).length := by
        rw [length_append, length_singleton]
        unfold committedOf restoreBatch at hfull ⊢
        omega
      rw [if_pos hfull, hall, take_length, drop_length, ← setRows_append,
        ← append_assoc, take_append_drop]
    have hsame : committedOf (rows ++ [r]).length = committedOf rows.length := by
      rw [length_append, length_singleton]
      unfold committedOf restoreBatch at hfull ⊢
      omega
    rw [if_neg hfull, hsame, take_append_of_le_length hle, drop_append_of_le_length hle]

theorem eight_mul_le_length (rows : List Row) :
    rows.length * 8 ≤ (rows.flatMap writeRow).length := by
  induction rows with
  | nil => exact Nat.le_refl 0
  | cons r rows ih =>
    have hrow : 8 ≤ (writeRow r).length := by
      rw [writeRow, writeBytes, writeBytes, writeUint32, writeUint32]
      simp only [length_append, length_be]
      omega
    rw [flatMap_cons, length_append, length_cons]
    omega

/-- The loop comes to what follows whole rows. -/
theorem restoreLoop_stream (clean : Bool) (P : Rows)
    (hrows : ∀ r ∈ rows, r.1.length < 2 ^ 32 - 1 ∧ r.2.length < 2 ^ 32) :
    ∃ fuel, restoreLoop clean ((rows.flatMap writeRow ++ tail).length + 1) P []
        (rows.flatMap writeRow ++ tail) =
      restoreLoop clean (fuel + 1) (setRows P (rows.take (committedOf rows.length)))
        (rows.drop (committedOf rows.length)) tail := by
  have hlen := eight_mul_le_length rows
  have hfuel : (rows.flatMap writeRow ++ tail).length + 1 =
      (rows.flatMap writeRow ++ tail).length - rows.length + 1 + rows.length := by
    rw [length_append]
    omega
  refine ⟨(rows.flatMap writeRow ++ tail).length - rows.length, ?_⟩
  rw [hfuel, restoreLoop_rows hrows (P, []), foldl_afterRow]

/-- **The whole stream** sets all its rows. -/
theorem restoreLoop_plainStream (clean : Bool) (P : Rows) (S : Snapshot) :
    restoreLoop clean ((plainStream S.rows).length + 1) P [] (plainStream S.rows) =
      (.ok (), setRows P S.rows) := by
  obtain ⟨fuel, hloop⟩ := restoreLoop_stream clean P S.storable
  rw [plainStream, hloop]
  have hend : readItem clean (writeEnd S.rows.length ++ []) = _ := reads_end S.rows.length []
  rw [append_nil] at hend
  rw [restoreLoop, hend]
  simp only
  rw [← setRows_append, take_append_drop]

/-! ### Streams that break off -/

/-- How many rows are whole among the first bytes. -/
def rowsWithin : List Row → Nat → Nat
  | [], _ => 0
  | r :: rows, n =>
    if (writeRow r).length ≤ n then rowsWithin rows (n - (writeRow r).length) + 1 else 0

theorem rowsWithin_le (rows : List Row) (n : Nat) : rowsWithin rows n ≤ rows.length := by
  induction rows generalizing n with
  | nil => exact Nat.le_refl 0
  | cons r rows ih =>
    rw [rowsWithin, length_cons]
    split_ifs
    · exact Nat.succ_le_succ (ih _)
    · exact Nat.zero_le _

/-- The first bytes of a stream are whole rows and a part of what follows them. -/
theorem take_plainStream {last : List UInt8} (hn : n < (rows.flatMap writeRow ++ last).length) :
    ∃ cut missing item, (rows.flatMap writeRow ++ last).take n =
        (rows.take (rowsWithin rows n)).flatMap writeRow ++ cut ∧
      cut ++ missing = item ∧ missing ≠ [] ∧ (item = last ∨ ∃ r ∈ rows, item = writeRow r) := by
  induction rows generalizing n with
  | nil =>
    refine ⟨last.take n, last.drop n, last, rfl, take_append_drop n last, ?_, .inl rfl⟩
    intro hnil
    have hlen : n < last.length := hn
    have := drop_eq_nil_iff.mp hnil
    omega
  | cons r rows ih =>
    rw [flatMap_cons, append_assoc] at hn ⊢
    rw [length_append] at hn
    rw [rowsWithin]
    by_cases hwhole : (writeRow r).length ≤ n
    · obtain ⟨cut, missing, item, htake, hitem, hmissing, hkind⟩ :=
        ih (n := n - (writeRow r).length) (by omega)
      refine ⟨cut, missing, item, ?_, hitem, hmissing, ?_⟩
      · rw [if_pos hwhole, take_append, take_of_length_le hwhole, htake,
          take_succ_cons, flatMap_cons, append_assoc]
      · rcases hkind with hlast | ⟨r', hr', hrow⟩
        · exact .inl hlast
        · exact .inr ⟨r', mem_cons_of_mem r hr', hrow⟩
    · refine ⟨(writeRow r).take n, (writeRow r).drop n, writeRow r, ?_,
        take_append_drop n _, ?_, .inr ⟨r, .head _, rfl⟩⟩
      · rw [if_neg hwhole, take_append_of_le_length (by omega)]
        rfl
      · intro hnil
        exact hwhole (drop_eq_nil_iff.mp hnil)

/-- **A stream that breaks off** leaves its full batches. -/
theorem restoreLoop_cut (clean : Bool) (P : Rows) (S : Snapshot)
    (hn : n < (plainStream S.rows).length) :
    ∃ e, restoreLoop clean (((plainStream S.rows).take n).length + 1) P []
        ((plainStream S.rows).take n) =
      (.error e, setRows P (S.rows.take (committedOf (rowsWithin S.rows n)))) := by
  have hn' : n < (S.rows.flatMap writeRow ++ writeEnd S.rows.length).length := hn
  obtain ⟨cut, missing, item, htake, hitem, hmissing, hkind⟩ := take_plainStream hn'
  have hstorable : ∀ r ∈ S.rows.take (rowsWithin S.rows n),
      r.1.length < 2 ^ 32 - 1 ∧ r.2.length < 2 ^ 32 :=
    fun r hr => S.storable r (mem_of_mem_take hr)
  have hcount : (S.rows.take (rowsWithin S.rows n)).length = rowsWithin S.rows n :=
    length_take_of_le (rowsWithin_le _ _)
  obtain ⟨e, he⟩ : ∃ e, readItem clean cut = .error e := by
    rcases hkind with rfl | ⟨r, hr, rfl⟩
    · exact readItem_cut (reads_end _) hitem hmissing
    · exact readItem_cut (reads_row (S.storable r hr).1 (S.storable r hr).2) hitem hmissing
  refine ⟨e, ?_⟩
  obtain ⟨fuel, hloop⟩ := restoreLoop_stream clean P hstorable
  have hcommitted : committedOf (rowsWithin S.rows n) ≤ rowsWithin S.rows n := by
    unfold committedOf restoreBatch
    omega
  rw [plainStream, htake, hloop, restoreLoop, he, hcount]
  simp only [take_take, min_eq_left hcommitted]

/-! ### Restores -/

/--
What is asked of compression: a whole string gives back what was compressed, and one that
is cut short gives the first bytes of it, and may or may not say that it is damaged.
-/
structure Zstd.Lawful (z : Zstd) : Prop where
  whole : ∀ bs, z.decompress (z.compress bs) = (bs, true)
  cut : ∀ bs n, n < (z.compress bs).length →
    ∃ k, k ≤ bs.length ∧ (z.decompress ((z.compress bs).take n)).1 = bs.take k

/-- A restore makes the database the snapshot, or fails and leaves it as it is. -/
structure Restores (z : Zstd) (P : Rows) (S : Snapshot) : Prop where
  whole : checkpointRestore z P (writeKVStream z S.rows) = (.ok (), S.toRows)
  cut : ∀ n, n < (writeKVStream z S.rows).length →
    ∃ e, checkpointRestore z P ((writeKVStream z S.rows).take n) = (.error e, P)

theorem checkpointRestore_magic (z : Zstd) (P : Rows) (rest : List UInt8) :
    checkpointRestore z P (magicPBL1 ++ rest) = restorePBL1 z P rest := by
  have hmagic : (readFull ReadErr.eof ReadErr.unexpectedEOF 4).Reads magicPBL1 magicPBL1 :=
    reads_readFull magicPBL1
  rw [checkpointRestore, hmagic rest]
  exact if_pos rfl

/-- Without its magic nothing is restored. -/
theorem checkpointRestore_cutMagic (z : Zstd) (P : Rows) (hn : n < 4) :
    ∃ e, checkpointRestore z P (stream.take n) = (.error e, P) := by
  have hshort : ¬ 4 ≤ (stream.take n).length := by
    rw [length_take]
    omega
  rw [checkpointRestore, readFull, if_neg hshort]
  by_cases hnil : stream.take n = []
  · exact ⟨_, by rw [if_pos hnil]⟩
  · exact ⟨_, by rw [if_neg hnil]⟩

theorem restorePBL1_whole (hz : z.Lawful) (P : Rows) (S : Snapshot) :
    restorePBL1 z P (z.compress (plainStream S.rows)) = (.ok (), setRows P S.rows) := by
  rw [restorePBL1, hz.whole]
  exact restoreLoop_plainStream true P S

/-- A compressed stream of which a reader gets the first bytes. -/
theorem restorePBL1_cut (S : Snapshot) {k : Nat} (hk : k < (plainStream S.rows).length)
    (hplain : (z.decompress stream).1 = (plainStream S.rows).take k) :
    ∃ e, restorePBL1 z P stream =
      (.error e, setRows P (S.rows.take (committedOf (rowsWithin S.rows k)))) := by
  obtain ⟨e, he⟩ := restoreLoop_cut (z.decompress stream).2 P S hk
  refine ⟨e, ?_⟩
  rw [restorePBL1]
  simp only [hplain]
  exact he

/-- A compressed stream of which a reader gets all bytes, whether it is cut or not. -/
theorem restorePBL1_all (S : Snapshot) (hplain : (z.decompress stream).1 = plainStream S.rows) :
    (restorePBL1 z P stream).1 = .ok () := by
  have hall := restoreLoop_plainStream (z.decompress stream).2 P S
  rw [restorePBL1]
  simp only [hplain, hall]

/--
**Restores.**  A restore makes the database the snapshot, and fails without a change if
the stream is cut short, exactly if every key of the database is in the snapshot, a
stream that is cut short never gives all its bytes, and the rows in the full batches
among those it gives are in the database already.
-/
theorem restore_replaces (z : Zstd) (hz : z.Lawful) (P : Rows) (S : Snapshot) : Restores z P S ↔
      (∀ k ∈ P, ∃ r ∈ S.rows, r.1 = k) ∧ ∀ n, n < (z.compress (plainStream S.rows)).length →
          ∃ k, k < (plainStream S.rows).length ∧
            (z.decompress ((z.compress (plainStream S.rows)).take n)).1 =
              (plainStream S.rows).take k ∧
            ∀ r ∈ S.rows.take (committedOf (rowsWithin S.rows k)), P.lookup r.1 = some r.2 := by
  have hcutLen : ∀ n, (magicPBL1 ++ z.compress (plainStream S.rows)).take (4 + n) =
      magicPBL1 ++ (z.compress (plainStream S.rows)).take n := by
    intro n
    have hfour : magicPBL1.length = 4 := rfl
    rw [take_append, hfour, Nat.add_sub_cancel_left, take_of_length_le (by omega)]
  have hsorted : ∀ m, (S.rows.take m).Pairwise fun a b => rank a.1 < rank b.1 :=
    fun m => S.sorted.sublist (take_sublist m S.rows)
  constructor
  · intro h
    constructor
    · have hwhole := h.whole
      rw [writeKVStream, checkpointRestore_magic, restorePBL1_whole hz] at hwhole
      exact Snapshot.setRows_eq_toRows_iff.mp (Prod.mk.inj hwhole).2
    intro n hn
    obtain ⟨k, hk, hplain⟩ := hz.cut (plainStream S.rows) n hn
    have hlen : 4 + n < (writeKVStream z S.rows).length := by
      rw [writeKVStream, length_append]
      exact Nat.add_lt_add_left hn 4
    obtain ⟨e, he⟩ := h.cut (4 + n) hlen
    rw [writeKVStream, hcutLen, checkpointRestore_magic] at he
    have hlt : k < (plainStream S.rows).length := by
      by_contra hge
      rw [take_of_length_le (Nat.le_of_not_lt hge)] at hplain
      have hok := restorePBL1_all P S hplain
      rw [he] at hok
      cases hok
    obtain ⟨e', he'⟩ := restorePBL1_cut P S hlt hplain
    rw [he] at he'
    have hsame := (Prod.mk.inj he').2.symm
    exact ⟨k, hlt, hplain, (setRows_eq_self_iff (hsorted _)).mp hsame⟩
  · rintro ⟨hkeys, hcut⟩
    constructor
    · rw [writeKVStream, checkpointRestore_magic, restorePBL1_whole hz]
      exact Prod.ext rfl (Snapshot.setRows_eq_toRows_iff.mpr hkeys)
    intro n hn
    by_cases hmagic : n < 4
    · exact checkpointRestore_cutMagic z P hmagic
    obtain ⟨m, rfl⟩ : ∃ m, n = 4 + m := ⟨n - 4, by omega⟩
    have hm : m < (z.compress (plainStream S.rows)).length := by
      rw [writeKVStream, length_append] at hn
      have : magicPBL1.length = 4 := rfl
      omega
    obtain ⟨k, hk, hplain, hthere⟩ := hcut m hm
    obtain ⟨e, he⟩ := restorePBL1_cut P S hk hplain
    refine ⟨e, ?_⟩
    rw [writeKVStream, hcutLen, checkpointRestore_magic, he,
      (setRows_eq_self_iff (hsorted _)).mpr hthere]

/-- Compression that does nothing. -/
def plainZstd : Zstd where
  compress bs := bs
  decompress bs := (bs, true)

theorem plainZstd_lawful : plainZstd.Lawful where
  whole _ := rfl
  cut _ n hn := ⟨n, Nat.le_of_lt hn, rfl⟩

theorem sample_storable : ∀ r ∈ [(([1], [2]) : Row)],
    r.1.length < 2 ^ 32 - 1 ∧ r.2.length < 2 ^ 32 := by
  intro r hr
  obtain rfl := mem_singleton.mp hr
  decide

/-- A snapshot of one row. -/
def sampleSnapshot : Snapshot where
  rows := [([1], [2])]
  sorted := pairwise_singleton _ _
  storable := sample_storable

theorem restore_replaces_older :
    Restores plainZstd ((∅ : Rows).insert [1] [9]) sampleSnapshot := by
  refine (restore_replaces plainZstd plainZstd_lawful _ sampleSnapshot).mpr ⟨?_, ?_⟩
  · intro k hk
    obtain rfl := (Finmap.mem_insert.mp hk).resolve_right notMem_empty
    exact ⟨_, mem_cons_self, rfl⟩
  intro n hn
  refine ⟨n, hn, rfl, ?_⟩
  have hfew : rowsWithin sampleSnapshot.rows n ≤ 1 := rowsWithin_le sampleSnapshot.rows n
  have hnone : committedOf (rowsWithin sampleSnapshot.rows n) = 0 := by
    unfold committedOf restoreBatch
    omega
  rw [hnone]
  simp

/-- The snapshot of an empty database. -/
def emptySnapshot : Snapshot where
  rows := []
  sorted := .nil
  storable _ hr := absurd hr not_mem_nil

/-- A row that is not in the snapshot is there after the restore. -/
theorem restore_keeps_old_row : (checkpointRestore plainZstd ((∅ : Rows).insert [1] [2])
      (writeKVStream plainZstd emptySnapshot.rows)).1 = .ok () ∧
    (checkpointRestore plainZstd ((∅ : Rows).insert [1] [2])
      (writeKVStream plainZstd emptySnapshot.rows)).2.lookup [1] = some [2] := by
  decide +kernel

end Nufs.Metadata.Pebble
