/-
What compaction copies, and when it may remove the file.

The worker takes a record for dead if the listing does not name its generation, if
`Stat` fails, or if the extent lies elsewhere.  Errors are dead records too, and the
file is removed all the same.  So the file can go only if every location in it is one
the worker copies: the listing succeeded and names the generation, the scan reaches a
record of the extent, and `Stat` succeeds on it.
-/
import Nufs.Proofs.Storage.Checkpoints
import Nufs.Storage.Compaction

namespace Nufs.Storage

open ByteFile List AList

/-! ### The listing -/

namespace Store

theorem lookup_merged (s : Store) (k : Key) : s.merged.lookup k = s.lookup k := by
  unfold merged lookup Overlay.get
  rw [lookup_union, lookup_union]

variable {k : Key} {s s' : Store} {v : Value}

theorem mem_merged (s : Store) :
    (⟨k, v⟩ : (_ : Key) × Value) ∈ s.merged.entries ↔ s.lookup k = some v := by
  rw [← lookup_merged, ← Option.mem_def, mem_lookup_iff]

/-- No higher generation of the extent is known. -/
def IsNewest (s : Store) (k : Key) : Prop :=
  ∀ g, k.2 < g → s.lookup (k.1, g) = none

theorem mem_listExtents {e : LiveExtent} :
    e ∈ s.listExtents ↔ s.lookup (e.extentID, e.generation) = some e.value ∧
      s.IsNewest (e.extentID, e.generation) ∧ e.value.state ≠ .tombstoned := by
  unfold listExtents
  simp only [mem_map, mem_filter, Bool.and_eq_true, all_eq_true, Bool.or_eq_true, decide_eq_true_eq]
  constructor
  · rintro ⟨⟨k, v⟩, ⟨hmem, hnewest, hstate⟩, rfl⟩
    refine ⟨s.mem_merged.mp hmem, ?_, hstate⟩
    intro g hg
    cases hk : s.lookup (k.1, g) with
    | none => rfl
    | some v' =>
      rcases hnewest ⟨(k.1, g), v'⟩ (s.mem_merged.mpr hk) with hne | hle
      · exact absurd rfl hne
      · exact absurd hg (UInt64.not_lt.mpr hle)
  · rintro ⟨hlookup, hnewest, hstate⟩
    refine ⟨⟨(e.extentID, e.generation), e.value⟩, ⟨s.mem_merged.mpr hlookup, ?_, hstate⟩, rfl⟩
    rintro ⟨k, v⟩ hmem
    by_cases hext : k.1 = e.extentID
    · right
      by_contra hlt
      have hnone := hnewest k.2 (UInt64.not_le.mp hlt)
      rw [show ((e.extentID, e.generation).1, k.2) = k from Prod.ext hext.symm rfl,
        s.mem_merged.mp hmem] at hnone
      simp at hnone
    · exact .inl hext

/-- The map the worker makes of the listing. -/
theorem latestGenerations_eq_some {env : CompactEnv} :
    latestGenerations (env.listed s) k.1 = some k.2 ↔
      env.listErr = none ∧ s.IsNewest k ∧ ∃ v, s.lookup k = some v ∧ v.state ≠ .tombstoned := by
  unfold latestGenerations CompactEnv.listed
  cases env.listErr with
  | some e => simp
  | none =>
    rw [Option.map_eq_some_iff]
    constructor
    · rintro ⟨e, hfind, hgen⟩
      have hext : e.extentID = k.1 := by simpa using List.find?_some hfind
      have hmem := mem_listExtents.mp (mem_reverse.mp (List.mem_of_find?_eq_some hfind))
      rw [hext, hgen] at hmem
      exact ⟨rfl, hmem.2.1, e.value, hmem.1, hmem.2.2⟩
    rintro ⟨-, hnewest, v, hlookup, hstate⟩
    have hlisted : (⟨k.1, k.2, v⟩ : LiveExtent) ∈ s.listExtents :=
      mem_listExtents.mpr ⟨hlookup, hnewest, hstate⟩
    have hsome : (s.listExtents.reverse.find? fun e => e.extentID = k.1).isSome := by
      rw [List.find?_isSome]
      exact ⟨_, mem_reverse.mpr hlisted, by simp⟩
    obtain ⟨e, hfind⟩ := Option.isSome_iff_exists.mp hsome
    refine ⟨e, hfind, ?_⟩
    -- Two listed generations of one extent are both its newest.
    have hext : e.extentID = k.1 := by simpa using List.find?_some hfind
    have hmem := mem_listExtents.mp (mem_reverse.mp (List.mem_of_find?_eq_some hfind))
    rw [hext] at hmem
    by_contra hne
    rcases UInt64.lt_or_lt_of_ne hne with hlt | hlt
    · have hnone := hmem.2.1 k.2 hlt
      rw [show ((k.1, e.generation).1, k.2) = k from rfl, hlookup] at hnone
      simp at hnone
    · have hnone := hnewest e.generation hlt
      rw [hmem.1] at hnone
      simp at hnone

/-! ### One append -/

/-- What an append does to the locations of a store. -/
structure Appends (s : Store) (k : Key) (r : Except Err Reloc × Store) : Prop where
  forward : Forward s r.2
  others : ∀ k' ≠ k, r.2.lookup k' = s.lookup k'
  failed : ∀ e, r.1 = .error e → r.2.lookup k = s.lookup k
  moved : ∀ loc, r.1 = .ok loc → loc.key = k ∧ r.2.lookup k = some loc.value ∧
    s.alloc.segmentID ≤ loc.segmentID

theorem Appends.of_unseen {e : Err} (hforward : Forward s s') (hunseen : Unseen s s') :
    Appends s k (.error e, s') := by
  have hlookup : ∀ k', s'.lookup k' = s.lookup k' := by
    intro k'
    unfold lookup
    rw [hunseen.overlay, hunseen.index]
  exact ⟨hforward, fun k' _ => hlookup k', fun _ _ => hlookup k, by simp⟩

theorem Forward.segmentID_le (h : Forward s s') : s.alloc.segmentID ≤ s'.alloc.segmentID := by
  rcases Prod.Lex.toLex_le_toLex.mp h.place with hlt | ⟨heq, -⟩
  · exact Nat.le_of_lt hlt
  · exact Nat.le_of_eq heq

theorem reserveOne_forward (fault : Fault) (now : UInt64) (pw : PendingWrite)
    (h : s.alloc.segmentID ≤ s.nextSeg) :
    Forward s (reserveOne fault now pw s).2.2 ∧ Unseen s (reserveOne fault now pw s).2.2 := by
  obtain ⟨fault', s', hroom, ⟨e, heq⟩ | ⟨off, alloc, hres, heq⟩⟩ := reserveOne_cases fault now pw s
  · rw [heq]
    exact ⟨hroom.forward h, hroom.unseen⟩
  rw [heq]
  have hforward := hroom.forward h
  obtain ⟨-, -, hadv⟩ := reserve_eq_ok hres
  have hplace : s'.alloc.place ≤ alloc.place :=
    place_le_of_offset hadv.segmentID (by rw [hadv.offset]; exact Nat.le_add_right _ _)
  exact ⟨⟨hadv.segmentID.le.trans hforward.nextSeg, hforward.place.trans hplace⟩,
    hroom.unseen.trans ⟨⟨rfl, rfl, rfl, rfl, rfl, rfl⟩, rfl⟩⟩

/-- Handing a visible location to the index changes nothing one can see. -/
theorem lookup_enqueueApply (h : s.overlay.get k = some v) (k' : Key) :
    (s.enqueueApply [⟨k, v⟩]).lookup k' = s.lookup k' := by
  unfold enqueueApply
  split
  · rfl
  · by_cases hk : k' = k
    · unfold lookup applyNow
      rw [hk, h, Option.some_or, Option.some_or]
    · unfold lookup applyNow Index.applyNow
      rw [foldl_cons, foldl_nil, lookup_insert_ne hk]

/-- What publishing a location leaves alone. -/
theorem published_kept (k : Key) (v : Value) (prev seq : UInt64) (s : Store) :
    let t := (publishRecoveryBatch prev seq 1
      { s with overlay := s.overlay.put k v }).enqueueApply [⟨k, v⟩]
    t.alloc = s.alloc ∧ t.nextSeg = s.nextSeg ∧ t.files = s.files ∧ t.locCache = s.locCache := by
  intro t
  have ht : t = (publishRecoveryBatch prev seq 1
      { s with overlay := s.overlay.put k v }).enqueueApply [⟨k, v⟩] := rfl
  rw [ht, publishRecoveryBatch_eq]
  unfold enqueueApply
  split
  · exact ⟨rfl, rfl, rfl, rfl⟩
  · exact ⟨rfl, rfl, rfl, rfl⟩

/-- The store behind a successful append, up to its bookkeeping. -/
theorem lookup_published (k : Key) (v : Value) (prev seq : UInt64) (k' : Key) :
    ((publishRecoveryBatch prev seq 1 { s with overlay := s.overlay.put k v }).enqueueApply
        [⟨k, v⟩]).lookup k' =
      if k' = k then some v else s.lookup k' := by
  have hput : (s.overlay.put k v).get k = some v := by
    unfold Overlay.get
    rw [Overlay.entries_put, lookup_insert, Option.some_or]
  rw [publishRecoveryBatch_eq, lookup_enqueueApply hput]
  unfold lookup
  split_ifs with hk
  · rw [hk, hput, Option.some_or]
  · unfold Overlay.get
    rw [Overlay.entries_put, lookup_insert_ne hk, Overlay.draining_put]

theorem reserveCommit_eq_ok {a a' : Allocator} {n off : Nat}
    (h : a.reserveCommit n = .ok (off, a')) : a' = { a with offset := a.offset + n } := by
  unfold Allocator.reserveCommit at h
  split at h
  · cases h
  · cases h
    rfl

/-- **An append** moves its extent to the active segment, or fails and moves nothing. -/
theorem appendRecord_appends (fault : Fault) (now : UInt64) (pw : PendingWrite)
    (h : s.alloc.segmentID ≤ s.nextSeg) : Appends s pw.key (appendRecord fault now pw s) := by
  obtain ⟨hforward, hunseen⟩ := reserveOne_forward fault now pw h
  unfold appendRecord
  split
  · rename_i heq
    rw [heq] at hforward hunseen
    exact .of_unseen hforward hunseen
  rename_i off fault' s1 heq
  rw [heq] at hforward hunseen
  dsimp only at hforward hunseen
  split
  · exact .of_unseen hforward hunseen
  rename_i commitOff alloc hres
  obtain rfl := reserveCommit_eq_ok hres
  set alloc : Allocator := { s1.alloc with offset := s1.alloc.offset + batchCommitSize }
  have hplace : s1.alloc.place ≤ alloc.place := place_le_of_offset rfl (Nat.le_add_right _ _)
  have hnext : alloc.segmentID ≤ s1.nextSeg := hforward.nextSeg
  dsimp only
  split
  · exact .of_unseen ⟨hnext, hforward.place.trans hplace⟩
      (hunseen.trans ⟨⟨rfl, rfl, rfl, rfl, rfl, rfl⟩, rfl⟩)
  rename_i fault'' files _
  let base : Store := { s1 with alloc, streamSeq := s1.streamSeq + 1, files }
  let value : Value := ⟨s1.alloc.segmentID, off, pw.header.storedLen, pw.header.logicalLen,
    .durable, pw.header.payloadChecksum⟩
  have hbase : ∀ k', base.lookup k' = s.lookup k' := by
    intro k'
    show (s1.overlay.get k').or (s1.index.lookup k') = _
    rw [hunseen.overlay, hunseen.index]
    rfl
  have hlook := lookup_published (s := base) pw.key value s1.streamSeq (s1.streamSeq + 1)
  obtain ⟨hallocEnd, hnextEnd, -⟩ :=
    published_kept pw.key value s1.streamSeq (s1.streamSeq + 1) base
  refine ⟨⟨?_, ?_⟩, ?_, by simp, ?_⟩
  · exact (congrArg Allocator.segmentID hallocEnd).le.trans (hnext.trans hnextEnd.ge)
  · exact (hforward.place.trans hplace).trans (congrArg Allocator.place hallocEnd).ge
  · intro k' hk
    exact (hlook k').trans ((if_neg hk).trans (hbase k'))
  · intro loc hloc
    cases hloc
    exact ⟨rfl, (hlook pw.key).trans (if_pos rfl), hforward.segmentID_le⟩

end Store

/-! ### The copying loop -/

/-- The extent lies in a segment, and is neither tombstoned nor corrupt. -/
def Store.LiveIn (s : Store) (srcID : SegmentID) (k : Key) : Prop :=
  ∃ v, s.lookup k = some v ∧ v.state ≠ .tombstoned ∧ v.state ≠ .corrupt ∧ v.segmentID = srcID

variable {s : Store} {srcID : SegmentID}

variable {k : Key} {c : FrameCodec} {file : File}

theorem isLive_stat {env : CompactEnv} {i : Nat} :
    isLive srcID (env.stat i s k) = true ↔ env.statErr i = none ∧ s.LiveIn srcID k := by
  unfold CompactEnv.stat Store.stat isLive Store.LiveIn
  cases env.statErr i with
  | some e => simp
  | none =>
    cases s.lookup k with
    | none => simp
    | some v =>
      by_cases hstate : v.state = .tombstoned ∨ v.state = .corrupt
      · rcases hstate with h | h
        · simp [h]
        · simp [h]
      · have hne := not_or.mp hstate
        simp [hne.1, hne.2]

section Loop

variable {env : CompactEnv} {latest : ExtentID → Option Generation}

/-- The worker takes the record with number `i` for live. -/
def TakenLive (env : CompactEnv) (srcID : SegmentID) (latest : ExtentID → Option Generation)
    (i : Nat) (s : Store) (k : Key) : Prop :=
  latest k.1 = some k.2 ∧ env.statErr i = none ∧ s.LiveIn srcID k

/-- A run of the loop in which every append succeeds. -/
inductive CopyRun (c : FrameCodec) (env : CompactEnv) (srcID : SegmentID)
    (latest : ExtentID → Option Generation) :
    List ScannedRecord → Nat → Store → List Reloc → Store → Prop
  | nil (i : Nat) (s : Store) : CopyRun c env srcID latest [] i s [] s
  | skip {r : ScannedRecord} {records : List ScannedRecord} {i : Nat} {s s' : Store}
      {relocs : List Reloc} (hdead : ¬ TakenLive env srcID latest i s r.key)
      (hrest : CopyRun c env srcID latest records (i + 1) s relocs s') :
      CopyRun c env srcID latest (r :: records) i s relocs s'
  | copy {r : ScannedRecord} {records : List ScannedRecord} {i : Nat} {s s1 s' : Store}
      {loc : Reloc} {relocs : List Reloc} (hlive : TakenLive env srcID latest i s r.key)
      (happ : appendScanned c env i r s = (.ok loc, s1))
      (hrest : CopyRun c env srcID latest records (i + 1) s1 relocs s') :
      CopyRun c env srcID latest (r :: records) i s (loc :: relocs) s'

theorem copyRun_of_compactLoop (records : List ScannedRecord) :
    ∀ (i : Nat) (s : Store) (relocs : List Reloc) (s' : Store),
      compactLoop c env srcID latest records i s = (.ok relocs, s') →
      CopyRun c env srcID latest records i s relocs s' := by
  induction records with
  | nil =>
    intro i s relocs s' h
    obtain ⟨hrelocs, rfl⟩ := Prod.mk.inj h
    cases hrelocs
    exact .nil i s
  | cons r records ih =>
    intro i s relocs s' h
    rw [compactLoop] at h
    have hiff : (latest r.extentID = some r.generation ∧
        isLive srcID (env.stat i s r.key) = true) ↔ TakenLive env srcID latest i s r.key :=
      and_congr_right fun _ => isLive_stat
    split_ifs at h with hlive
    · split at h
      · simp at h
      · rename_i loc s1 happ
        split at h
        · simp at h
        · rename_i relocs' s2 hrest
          obtain ⟨hrelocs, rfl⟩ := Prod.mk.inj h
          cases hrelocs
          exact .copy (hiff.mp hlive) happ (ih _ _ _ _ hrest)
    · exact .skip (fun hl => hlive (hiff.mpr hl)) (ih _ _ _ _ h)

theorem appendScanned_appends (i : Nat) (r : ScannedRecord) (h : s.alloc.segmentID ≤ s.nextSeg) :
    s.Appends r.key (appendScanned c env i r s) := by
  unfold appendScanned
  split
  · exact .of_unseen (.refl h) (.refl s)
  rename_i pw hbuild
  have hkey : pw.key = r.key := by
    unfold Store.buildAppend at hbuild
    split at hbuild
    · simp at hbuild
    · obtain ⟨stored, entries, -, rfl⟩ := Store.buildPut_ok hbuild
      rfl
  rw [← hkey]
  exact Store.appendRecord_appends (env.fault i) (env.now i) pw h

/-- The loop meets a record of the extent that it takes for live. -/
def Met (env : CompactEnv) (srcID : SegmentID) (latest : ExtentID → Option Generation)
    (records : List ScannedRecord) (i : Nat) (s : Store) (k : Key) : Prop :=
  ∃ j r, records[j]? = some r ∧ r.key = k ∧ TakenLive env srcID latest (i + j) s k

variable {records : List ScannedRecord} {i : Nat}

theorem met_cons {r : ScannedRecord} : Met env srcID latest (r :: records) i s k ↔
      (r.key = k ∧ TakenLive env srcID latest i s k) ∨
        Met env srcID latest records (i + 1) s k := by
  unfold Met
  constructor
  · rintro ⟨j, r', hget, hkey, hlive⟩
    cases j with
    | zero =>
      obtain rfl : r = r' := by simpa using hget
      exact .inl ⟨hkey, hlive⟩
    | succ j =>
      refine .inr ⟨j, r', by simpa using hget, hkey, ?_⟩
      rwa [show i + 1 + j = i + (j + 1) by omega]
  · rintro (⟨hkey, hlive⟩ | ⟨j, r', hget, hkey, hlive⟩)
    · exact ⟨0, r, rfl, hkey, hlive⟩
    · refine ⟨j + 1, r', by simpa using hget, hkey, ?_⟩
      rwa [show i + (j + 1) = i + 1 + j by omega]

theorem met_congr {s' : Store} (h : s'.lookup k = s.lookup k) :
    Met env srcID latest records i s' k ↔ Met env srcID latest records i s k := by
  unfold Met TakenLive Store.LiveIn
  rw [h]

/-- An extent that lies elsewhere is not met. -/
theorem not_met {v : Value} (h : s.lookup k = some v) (hsrc : srcID < v.segmentID) :
    ¬ Met env srcID latest records i s k := by
  rintro ⟨j, r, -, -, -, -, w, hw, -, -, hin⟩
  obtain rfl : v = w := Option.some.inj (h.symm.trans hw)
  exact absurd hin (Nat.ne_of_gt hsrc)

/-- **The loop** moves out of the segment just the extents it meets. -/
theorem CopyRun.lookup {s' : Store} {relocs : List Reloc}
    (h : CopyRun c env srcID latest records i s relocs s') (hseg : s.alloc.segmentID ≤ s.nextSeg)
    (hsrc : srcID < s.alloc.segmentID) :
    (∀ r ∈ relocs, srcID < r.segmentID) ∧ (∀ k, ¬ Met env srcID latest records i s k →
        s'.lookup k = s.lookup k ∧ ∀ r ∈ relocs, r.key ≠ k) ∧
      ∀ k, Met env srcID latest records i s k →
        ∃ v, s'.lookup k = some v ∧ srcID < v.segmentID := by
  induction h with
  | nil i s =>
    refine ⟨by simp, fun k _ => ⟨rfl, by simp⟩, ?_⟩
    rintro k ⟨j, r, hget, -⟩
    simp at hget
  | @skip r records i s s' relocs hdead _ ih =>
    obtain ⟨hrelocs, hkept, hmoved⟩ := ih hseg hsrc
    refine ⟨hrelocs, ?_, ?_⟩
    · intro k hk
      exact hkept k fun hm => hk (met_cons.mpr (.inr hm))
    · intro k hk
      rcases met_cons.mp hk with ⟨rfl, hlive⟩ | hm
      · exact absurd hlive hdead
      · exact hmoved k hm
  | @copy r records i s s1 s' loc relocs hlive happ _ ih =>
    have happends : s.Appends r.key (appendScanned c env i r s) := appendScanned_appends i r hseg
    rw [happ] at happends
    obtain ⟨hkey, hat, hle⟩ := happends.moved loc rfl
    have hsrc1 : srcID < s1.alloc.segmentID := Nat.lt_of_lt_of_le hsrc happends.forward.segmentID_le
    obtain ⟨hrelocs, hkept, hmoved⟩ := ih happends.forward.nextSeg hsrc1
    have hloc : srcID < loc.segmentID := Nat.lt_of_lt_of_le hsrc hle
    -- The extent has left the segment, so the rest of the loop leaves it alone.
    have hgone : ¬ Met env srcID latest records (i + 1) s1 r.key := not_met hat hloc
    have hsame : ∀ k, k ≠ r.key →
        (Met env srcID latest records (i + 1) s1 k ↔ Met env srcID latest records (i + 1) s k) :=
      fun k hk => met_congr (happends.others k hk)
    refine ⟨?_, ?_, ?_⟩
    · exact forall_mem_cons.mpr ⟨hloc, hrelocs⟩
    · intro k hk
      have hne : k ≠ r.key := by
        rintro rfl
        exact hk (met_cons.mpr (.inl ⟨rfl, hlive⟩))
      obtain ⟨hlook, hno⟩ := hkept k fun hm => hk (met_cons.mpr (.inr ((hsame k hne).mp hm)))
      refine ⟨hlook.trans (happends.others k hne), forall_mem_cons.mpr ⟨?_, hno⟩⟩
      rw [hkey]
      exact hne.symm
    · intro k hk
      by_cases hne : k = r.key
      · rw [hne, (hkept r.key hgone).1, hat]
        exact ⟨_, rfl, hloc⟩
      · rcases met_cons.mp hk with ⟨hkey', -⟩ | hm
        · exact absurd hkey'.symm hne
        · exact hmoved k ((hsame k hne).mpr hm)

end Loop

/-! ### Removing the file -/

/-- The store with an extent repointed. -/
def Store.repointed (s : Store) (r : Reloc) : Store :=
  { s with overlay := s.overlay.put r.key r.value, locCache := s.locCache.erase r.key }

theorem lookup_repointed (s : Store) (r : Reloc) (k : Key) :
    (s.repointed r).lookup k = if k = r.key then some r.value else s.lookup k := by
  unfold Store.lookup Store.repointed Overlay.get
  rw [Overlay.entries_put, Overlay.draining_put]
  split_ifs with hk
  · rw [hk, lookup_insert, Option.some_or, Option.some_or]
  · rw [lookup_insert_ne hk]

/-- A relocation skips an extent that is tombstoned, and repoints it otherwise. -/
theorem relocate_cons (s : Store) (r : Reloc) (relocs : List Reloc) :
    (s.relocate (r :: relocs) = s.relocate relocs ∧
        ∃ v, s.lookup r.key = some v ∧ v.state = .tombstoned) ∨
      s.relocate (r :: relocs) = (s.repointed r).relocate relocs := by
  unfold Store.relocate
  rw [foldl_cons]
  split
  · rename_i v hv
    split
    · rename_i htomb
      refine .inl ⟨rfl, v, ?_, htomb⟩
      unfold Store.lookup
      rw [hv, Option.some_or]
    · exact .inr rfl
  · exact .inr rfl

/-- A relocation leaves a location alone or publishes one of its own. -/
theorem lookup_relocate (relocs : List Reloc) :
    ∀ (s : Store) (k : Key), (s.relocate relocs).lookup k = s.lookup k ∨
      ∃ r ∈ relocs, r.key = k ∧ (s.relocate relocs).lookup k = some r.value := by
  induction relocs with
  | nil =>
    intro s k
    exact .inl rfl
  | cons r relocs ih =>
    intro s k
    rcases relocate_cons s r relocs with ⟨hskip, -⟩ | hput
    · rw [hskip]
      rcases ih s k with hsame | ⟨r', hr', hkey, hval⟩
      · exact .inl hsame
      · exact .inr ⟨r', .tail _ hr', hkey, hval⟩
    rw [hput]
    rcases ih (s.repointed r) k with hsame | ⟨r', hr', hkey, hval⟩
    · rw [lookup_repointed] at hsame
      split_ifs at hsame with hk
      · exact .inr ⟨r, .head _, hk.symm, hsame⟩
      · exact .inl hsame
    · exact .inr ⟨r', .tail _ hr', hkey, hval⟩

/-- The extent lies in a segment: its location, in the overlay first and then in the index, is
there and not tombstoned. -/
def Store.LiesIn (s : Store) (srcID : SegmentID) (k : Key) : Prop :=
  ∃ v, s.lookup k = some v ∧ v.state ≠ .tombstoned ∧ v.segmentID = srcID

/-- What compaction needs of an extent in the segment to move it: the listing succeeds, the
generation is the newest, the extent is not corrupt, and the scan finds a record of it on which
`Stat` succeeds. -/
structure Movable (env : CompactEnv) (s : Store) (file : File) (k : Key) : Prop where
  listed : env.listErr = none
  newest : s.IsNewest k
  sound : ∀ v, s.lookup k = some v → v.state ≠ .corrupt
  scanned : ∃ i r, (scanSegmentRecords file.bytes)[i]? = some r ∧ r.key = k ∧ env.statErr i = none

/-- A removal comes after a run of the loop. -/
theorem compactSegment_ok {env : CompactEnv} {s' : Store} {n : Nat}
    (h : compactSegment c env srcID s = (.ok n, s')) :
    ∃ file relocs s1, s.files.lookup srcID = some file ∧
      CopyRun c env srcID (latestGenerations (env.listed s)) (scanSegmentRecords file.bytes) 0 s
        relocs s1 ∧
      s' = { s1.relocate relocs with files := (s1.relocate relocs).files.erase srcID } := by
  unfold compactSegment at h
  split at h
  · simp at h
  rename_i file hfile
  split at h
  · simp at h
  split at h
  · simp at h
  rename_i relocs s1 hloop
  dsimp only at h
  split at h
  · simp at h
  · cases h
    exact ⟨file, relocs, s1, hfile, copyRun_of_compactLoop _ _ _ _ _ hloop, rfl⟩

theorem met_iff_movable {env : CompactEnv} (h : s.LiesIn srcID k) :
    Met env srcID (latestGenerations (env.listed s)) (scanSegmentRecords file.bytes) 0 s k ↔
      Movable env s file k := by
  obtain ⟨v, hv, hstate, hsrc⟩ := h
  constructor
  · rintro ⟨i, r, hget, hkey, hlatest, hstat, v', hv', -, hcorrupt, -⟩
    obtain ⟨hlist, hnewest, -⟩ := Store.latestGenerations_eq_some.mp hlatest
    refine ⟨hlist, hnewest, ?_, i, r, hget, hkey, by simpa using hstat⟩
    intro w hw
    obtain rfl : v' = w := Option.some.inj (hv'.symm.trans hw)
    exact hcorrupt
  · intro hm
    obtain ⟨i, r, hget, hkey, hstat⟩ := hm.scanned
    refine ⟨i, r, hget, hkey, ?_, by simpa using hstat, v, hv, hstate, hm.sound v hv, hsrc⟩
    exact Store.latestGenerations_eq_some.mpr ⟨hm.listed, hm.newest, v, hv, hstate⟩

/-- No extent is left in the segment exactly if every one that lay in it could be moved. -/
theorem liesIn_relocate_iff {env : CompactEnv} {s1 : Store} {relocs : List Reloc}
    (hseg : s.alloc.segmentID ≤ s.nextSeg) (hsealed : srcID < s.alloc.segmentID)
    (hrun : CopyRun c env srcID (latestGenerations (env.listed s))
      (scanSegmentRecords file.bytes) 0 s relocs s1) :
    (∀ k, ¬ (s1.relocate relocs).LiesIn srcID k) ↔
      ∀ k, s.LiesIn srcID k → Movable env s file k := by
  obtain ⟨hrelocs, hkept, hmoved⟩ := hrun.lookup hseg hsealed
  constructor
  · intro hnone k hlies
    by_contra hnot
    obtain ⟨hsame, hno⟩ := hkept k fun hm => hnot ((met_iff_movable hlies).mp hm)
    refine hnone k ?_
    obtain ⟨v, hv, hstate, hsrc⟩ := hlies
    refine ⟨v, ?_, hstate, hsrc⟩
    rcases lookup_relocate relocs s1 k with heq | ⟨r, hr, hkey, -⟩
    · rw [heq, hsame, hv]
    · exact absurd hkey (hno r hr)
  · intro hall k hlies
    obtain ⟨v, hv, hstate, hsrc⟩ := hlies
    rcases lookup_relocate relocs s1 k with heq | ⟨r, hr, -, hval⟩
    · rw [heq] at hv
      by_cases hm : Met env srcID (latestGenerations (env.listed s))
          (scanSegmentRecords file.bytes) 0 s k
      · obtain ⟨w, hw, hlt⟩ := hmoved k hm
        obtain rfl : w = v := Option.some.inj (hw.symm.trans hv)
        exact absurd hsrc (Nat.ne_of_gt hlt)
      · have hbefore : s.LiesIn srcID k := ⟨v, (hkept k hm).1.symm.trans hv, hstate, hsrc⟩
        exact hm ((met_iff_movable hbefore).mpr (hall k hbefore))
    · obtain rfl : r.value = v := Option.some.inj (hval.symm.trans hv)
      exact absurd hsrc (Nat.ne_of_gt (hrelocs r hr))

/--
**When the file may go.**  A compaction of a sealed segment that removes the file
leaves no extent in it exactly if every extent that lay in it could be moved.
-/
theorem compactSegment_removes (c : FrameCodec) (env : CompactEnv) {srcID : SegmentID}
    {s s' : Store} {n : Nat} (hseg : s.alloc.segmentID ≤ s.nextSeg)
    (hsealed : srcID < s.alloc.segmentID) (h : compactSegment c env srcID s = (.ok n, s')) :
    (∀ k, ¬ s'.LiesIn srcID k) ↔
      ∀ file k, s.files.lookup srcID = some file → s.LiesIn srcID k → Movable env s file k := by
  obtain ⟨file, relocs, s1, hfile, hrun, rfl⟩ := compactSegment_ok h
  refine (liesIn_relocate_iff hseg hsealed hrun).trans ?_
  constructor
  · intro hall file' k hfile' hlies
    obtain rfl : file = file' := Option.some.inj (hfile.symm.trans hfile')
    exact hall k hlies
  · intro hall k hlies
    exact hall file k hfile hlies

namespace SampleCompaction

/-- A store whose first segment holds one record and is sealed. -/
def store : Store :=
  (Store.sealActiveLocked none 0
    (Store.commitBatch none 0 [SampleCheckpoint.record 7] SampleMachine.emptyStore).2).2.2

/-- A run without errors, apart from what the listing returns. -/
def env (listErr : Option Err) : CompactEnv where
  listErr
  statErr := fun _ => none
  nonce := fun _ _ => []
  now := fun _ => 0
  fault := fun _ => none
  removeErr := none

/-- Where the record lies. -/
def location : Value := ⟨1, 22, 1, 1, .durable, crc32c [7]⟩

end SampleCompaction

open SampleCompaction in
theorem compactSegment_removes_copied :
    ∃ s', compactSegment SampleMachine.codec (env none) 1 store = (.ok 1, s') ∧
      ((∀ k, ¬ s'.LiesIn 1 k) ↔ ∀ file k, store.files.lookup 1 = some file → store.LiesIn 1 k →
        Movable (env none) store file k) := by
  have hok : (compactSegment SampleMachine.codec (env none) 1 store).1 = .ok 1 := by decide +kernel
  rcases h : compactSegment SampleMachine.codec (env none) 1 store with ⟨r, s'⟩
  rw [h] at hok
  obtain rfl : r = .ok 1 := hok
  exact ⟨s', rfl, compactSegment_removes _ _ (by decide +kernel) (by decide +kernel) h⟩

open SampleCompaction in
/-- The listing fails, and the file goes with the only copy of an extent. -/
theorem compactSegment_removes_unlisted :
    (compactSegment SampleMachine.codec (env (some .storeClosed)) 1 store).1 = .ok 0 ∧
      (compactSegment SampleMachine.codec (env (some .storeClosed)) 1 store).2.LiesIn 1 (7, 1) ∧
      (compactSegment SampleMachine.codec (env (some .storeClosed)) 1 store).2.files.lookup 1 =
        none := by
  have hlookup : (compactSegment SampleMachine.codec (env (some .storeClosed)) 1 store).2.lookup
      (7, 1) = some location := by
    decide +kernel
  exact ⟨by decide +kernel, ⟨location, hlookup, by decide, rfl⟩, by decide +kernel⟩

end Nufs.Storage
