/-
When a read of an erasure-coded chunk returns the data.

The full read takes the size of a shard from the shards and is always right.  The read of a
window takes it from the size in the chunk's row.  If that is larger than the size the data
was encoded with, a window that the first shard owns is still right, and a range that runs
over the end of a shard fails and leads to the full read; but a range that fits into a later
shard is answered with bytes from another place.
-/
import Nufs.Chunkstore.EcRead
import Nufs.Lib.ExceptBind
import Nufs.Lib.Maximum
import Nufs.Proofs.Storage.Reader

namespace Nufs.Chunkstore

open Maximum List Nat
open Nufs.Storage (sliceOf frameOf length_sliceOf sliceOf_append_frameOf)

/-- The same range of every shard that is present. -/
def sliced (shards : List (List UInt8)) (present : Nat → Bool) (n start stop : Nat) :
    List (Option (List UInt8)) :=
  (List.range n).map fun i =>
    if present i then shards[i]?.map fun d => sliceOf d start stop else none

/-- What is assumed of the code: parity shards are as long as data shards, the same range of
any `k` of the `k + m` shards gives that range of all, and a full set of shards verifies. -/
structure ReedSolomon.Sound (rs : ReedSolomon) (k m : Nat) : Prop where
  parity : ∀ data size, data.length = k → (∀ d ∈ data, d.length = size) →
    (rs.parity data).length = m ∧ ∀ p ∈ rs.parity data, p.length = size
  rebuilds : ∀ data size start stop (present : Nat → Bool), data.length = k →
    (∀ d ∈ data, d.length = size) → start < stop → stop ≤ size →
    k ≤ ((List.range (k + m)).filter present).length →
    rs.reconstruct (sliced (data ++ rs.parity data) present (k + m) start stop) =
      some ((data ++ rs.parity data).map fun d => sliceOf d start stop)
  verifies : ∀ data size, data.length = k → (∀ d ∈ data, d.length = size) →
    rs.verify (data ++ rs.parity data) = true

/-! ### Encoding -/

variable {k m size offset length : Nat} {data : List UInt8} {rs : ReedSolomon}
  {reachable : Nat → Bool}

theorem le_shardSizeOf_mul (hk : 0 < k) (n : Nat) : n ≤ shardSizeOf n k * k := by
  rw [shardSizeOf]
  have hdiv := div_add_mod' (n + k - 1) k
  have hmod := mod_lt (n + k - 1) hk
  omega

theorem shardSizeOf_mono {a b : Nat} (k : Nat) (h : a ≤ b) : shardSizeOf a k ≤ shardSizeOf b k :=
  Nat.div_le_div_right (by omega)

theorem sliceOf_padded (k : Nat) {start stop : Nat} (h : stop ≤ data.length) :
    sliceOf (padded k data) start stop = sliceOf data start stop := by
  rw [sliceOf, sliceOf, padded, take_append_of_le_length h]

/-- Shards of one size: the first `k` are the frames of `P`, and any `k` give all. -/
structure Codeword (rs : ReedSolomon) (k m S : Nat) (P : List UInt8)
    (shards : List (List UInt8)) : Prop where
  pos : 0 < k
  count : shards.length = k + m
  sizes : ∀ d ∈ shards, d.length = S
  frames : shards.take k = (List.range k).map (frameOf S P)
  padded : P.length = S * k
  rebuilds : ∀ start stop (present : Nat → Bool), start < stop → stop ≤ S →
    k ≤ ((List.range (k + m)).filter present).length →
    rs.reconstruct (sliced shards present (k + m) start stop) =
      some (shards.map fun d => sliceOf d start stop)
  verifies : rs.verify shards = true

theorem encode_codeword (hrs : rs.Sound k m) (hk : 0 < k) (data : List UInt8) :
    Codeword rs k m (shardSizeOf data.length k) (padded k data) (encode rs k data) := by
  have hle := le_shardSizeOf_mul hk data.length
  have hpadded : (padded k data).length = shardSizeOf data.length k * k := by
    rw [padded, length_append, length_replicate]
    omega
  have hcount : (dataShards k data).length = k := by simp [dataShards]
  have hsize : ∀ d ∈ dataShards k data, d.length = shardSizeOf data.length k := by
    intro d hd
    obtain ⟨i, hi, rfl⟩ := mem_map.mp hd
    have hi := mul_le_mul_right (shardSizeOf data.length k) (mem_range.mp hi)
    rw [Nat.succ_mul, mul_comm k] at hi
    rw [length_take, length_drop, hpadded]
    omega
  obtain ⟨hparity, hparities⟩ := hrs.parity _ _ hcount hsize
  refine ⟨hk, ?_, fun d hd => (mem_append.mp hd).elim (hsize d) (hparities d),
    take_left' hcount, hpadded, fun start stop present =>
      hrs.rebuilds _ _ start stop present hcount hsize, hrs.verifies _ _ hcount hsize⟩
  rw [encode, length_append, hcount, hparity]

/-- The data shards one after the other, cut to a range, are that range of the padded data. -/
theorem flatMap_frames (P : List UInt8) (S start stop k : Nat) : ((List.range k).flatMap fun i =>
      ((frameOf S P i).take (stop - i * S)).drop (start - i * S)) =
      sliceOf P start (min stop (k * S)) := by
  induction k with
  | zero => simp [sliceOf]
  | succ k ih =>
    rw [range_succ, flatMap_append, ih, flatMap_singleton]
    exact sliceOf_append_frameOf S P start stop k

/-! ### The places of a window -/

section

variable {S stop : Nat} {w : Window}

theorem mem_windowsOf (h : w ∈ windowsOf k size offset stop) :
    w.shard < k ∧ offset < (w.shard + 1) * size ∧
      w.shard * size < stop ∧ w.start = offset - w.shard * size ∧
      w.stop = min (stop - w.shard * size) size := by
  obtain ⟨i, hi, hw⟩ := mem_filterMap.mp h
  by_cases hskip : (i + 1) * size ≤ offset ∨ stop ≤ i * size
  · simp [hskip] at hw
  · rw [if_neg hskip] at hw
    cases hw
    rw [not_or, not_le, not_le] at hskip
    exact ⟨mem_range.mp hi, hskip.1, hskip.2, rfl, rfl⟩

theorem start_lt_stop (hlt : offset < stop) (h : w ∈ windowsOf k size offset stop) :
    w.start < w.stop := by
  obtain ⟨-, hend, hstart, hws, hwe⟩ := mem_windowsOf h
  have hsize : 0 < size := pos_of_ne_zero fun hzero => by simp [hzero] at hend
  rw [Nat.succ_mul] at hend
  omega

/-- The shards skipped by the windows own nothing of the range. -/
theorem flatMap_windowsOf (P : List UInt8) (hS : S ≤ size) :
    ((windowsOf k size offset stop).map fun w =>
      sliceOf (frameOf S P w.shard) w.start w.stop).flatten = (List.range k).flatMap fun i =>
        sliceOf (frameOf S P i) (offset - i * size) (min (stop - i * size) size) := by
  rw [← flatMap_def, windowsOf, filterMap_eq_flatMap_toList, flatMap_assoc]
  refine flatMap_congr fun i _ => ?_
  by_cases hskip : (i + 1) * size ≤ offset ∨ stop ≤ i * size
  · have hlen : (frameOf S P i).length ≤ S := by
      rw [Nufs.Storage.length_frameOf]
      omega
    rw [Nat.succ_mul] at hskip
    simp only [Nat.succ_mul, if_pos hskip, sliceOf]
    refine (drop_eq_nil_of_le ?_).symm
    rw [length_take]
    omega
  · simp [hskip]

theorem shard_lt (hS : S < size) (hlt : offset < stop) (hstop : stop ≤ S * k) :
    offset / size < k := by
  refine (div_lt_iff_lt_mul (zero_lt_of_lt hS)).mpr (hlt.trans_le (hstop.trans ?_))
  exact (mul_le_mul_right k hS.le).trans_eq (mul_comm _ _)

/-- The windows all fit into shards of a smaller size exactly if there is one window, and it
ends before the smaller size. -/
theorem windows_fit_iff (hS : S < size) (hlt : offset < stop) (hstop : stop ≤ S * k) :
    (∀ w ∈ windowsOf k size offset stop, w.stop ≤ S) ↔ stop ≤ offset / size * size + S := by
  have hdiv := div_add_mod' offset size
  have hmod := mod_lt offset (zero_lt_of_lt hS)
  have hi : offset / size < k := shard_lt hS hlt hstop
  constructor
  · intro h
    have hskip : ¬((offset / size + 1) * size ≤ offset ∨ stop ≤ offset / size * size) := by
      rw [Nat.succ_mul]
      omega
    have hw := h _ (mem_filterMap.mpr ⟨_, mem_range.mpr hi, if_neg hskip⟩)
    simp only at hw
    omega
  · intro h w hw
    obtain ⟨-, hend, hstart, -, hwe⟩ := mem_windowsOf hw
    have hle : w.shard ≤ offset / size := by
      refine Nat.lt_succ_iff.mp (Nat.lt_of_mul_lt_mul_right (a := size) ?_)
      rw [Nat.succ_mul]
      omega
    have hge : offset / size ≤ w.shard := by
      have hle : offset / size * size ≤ offset := by omega
      exact Nat.lt_succ_iff.mp (Nat.lt_of_mul_lt_mul_right (hle.trans_lt hend))
    rw [Nat.le_antisymm hle hge] at hwe
    omega

/-- Shards of the right size: the windows give the range. -/
theorem flatMap_same (P : List UInt8) (hstop : stop ≤ S * k) : ((List.range k).flatMap fun i =>
      sliceOf (frameOf S P i) (offset - i * S) (min (stop - i * S) S)) = sliceOf P offset stop := by
  have hframes := flatMap_frames P S offset stop k
  rw [Nat.min_eq_left (mul_comm S k ▸ hstop)] at hframes
  rw [← hframes]
  refine flatMap_congr fun i _ => ?_
  rw [sliceOf, ← take_take, take_of_length_le (i := S)]
  exact (Nufs.Storage.length_frameOf S P i).trans_le (min_le_left _ _)

theorem flatMap_range_single {f : Nat → List UInt8} {i : Nat} (hi : i < k)
    (h : ∀ j, j ≠ i → f j = []) : (List.range k).flatMap f = f i := by
  induction k with
  | zero => omega
  | succ k ih =>
    rw [range_succ, flatMap_append, flatMap_singleton]
    by_cases hk : i = k
    · have hnil : (List.range k).flatMap f = [] :=
        flatMap_eq_nil_iff.mpr fun j hj => h j (by have := mem_range.mp hj; omega)
      rw [hnil, hk, nil_append]
    · rw [ih (by omega), h k (by omega), append_nil]

theorem mapM_of_exists {α β : Type} {l : List α} {f : α → Option β}
    (h : ∃ a ∈ l, f a = none) : l.mapM f = none := by
  induction l with
  | nil => simp at h
  | cons a l ih =>
    rcases exists_mem_cons_iff .. |>.mp h with ha | hl
    · simp [ha]
    · cases hf : f a <;> simp [hf, ih hl]

end

namespace Codeword

/-! ### What the datanodes answer -/

variable {S i : Nat} {P : List UInt8} {shards : List (List UInt8)} {w : Window}
  (h : Codeword rs k m S P shards)

include h

theorem get (hi : i < k + m) : ∃ d, shards[i]? = some d ∧ d.length = S :=
  have hi' : i < shards.length := hi.trans_eq h.count.symm
  ⟨_, List.getElem?_eq_getElem hi', h.sizes _ (getElem_mem hi')⟩

theorem frame (hi : i < k) : shards[i]? = some (frameOf S P i) ∧ (frameOf S P i).length = S := by
  have hget : (shards.take k)[i]? = some (frameOf S P i) := by
    rw [h.frames]
    simp [hi]
  rw [List.getElem?_take_of_lt hi] at hget
  exact ⟨hget, h.sizes _ (List.mem_of_getElem? hget)⟩

/-- A range inside a shard comes in full from every shard that can be reached. -/
theorem fetchExact_fits (hi : i < k + m) (hw : w.start < w.stop) (hfits : w.stop ≤ S) :
    fetchExact (served shards reachable) i w =
      if reachable i then shards[i]?.map fun d => sliceOf d w.start w.stop else none := by
  obtain ⟨d, hd, hsize⟩ := h.get hi
  cases hreach : reachable i with
  | false => simp [fetchExact, served, hreach]
  | true =>
    have hrange : readShardRange d w.start (w.stop - w.start) =
        some (sliceOf d w.start w.stop) := by
      rw [readShardRange, if_neg (by omega), if_neg (by omega), sliceOf, drop_take]
    have hlen := length_sliceOf d w.start (hsize ▸ hfits)
    simp [fetchExact, served, hreach, hd, hrange, hlen]

/-- A range over the end of a shard never comes in full. -/
theorem fetchExact_beyond (hi : i < k + m) (hw : w.start < w.stop) (hbeyond : S < w.stop) :
    fetchExact (served shards reachable) i w = none := by
  obtain ⟨d, hd, hsize⟩ := h.get hi
  have hpos : w.stop - w.start ≠ 0 := by omega
  cases hreach : reachable i with
  | false => simp [fetchExact, served, hreach]
  | true =>
    by_cases hstart : d.length ≤ w.start
    · simp [fetchExact, served, hreach, hd, readShardRange, hstart, hpos]
    · have hne : ((d.drop w.start).take (w.stop - w.start)).length ≠ w.stop - w.start := by
        rw [length_take, length_drop]
        omega
      simpa [fetchExact, served, hreach, hd, readShardRange, hstart, hpos] using hne

theorem filter_sliced (start stop : Nat) :
    ((sliced shards reachable (k + m) start stop).filter Option.isSome).length =
      ((List.range (k + m)).filter reachable).length := by
  rw [sliced, ← countP_eq_length_filter, ← countP_eq_length_filter, countP_map]
  refine countP_congr fun i hi => ?_
  obtain ⟨d, hd, -⟩ := h.get (mem_range.mp hi)
  cases hreach : reachable i <;> simp [hreach, hd]

/-- A window over the end of the shards is neither read nor rebuilt. -/
theorem window_beyond (hi : w.shard < k) (hw : w.start < w.stop) (hbeyond : S < w.stop) :
    (fetchExact (served shards reachable) w.shard w).or
      (rebuildWindow rs k m (served shards reachable) w) = none := by
  have hslices : ((List.range (k + m)).map fun i => if i = w.shard then none
      else fetchExact (served shards reachable) i w) = (List.range (k + m)).map fun _ => none := by
    refine map_congr_left fun i hi => ?_
    rw [h.fetchExact_beyond (mem_range.mp hi) hw hbeyond, ite_self]
  rw [h.fetchExact_beyond (by omega) hw hbeyond, Option.none_or, rebuildWindow, hslices]
  simp [h.pos]

variable (henough : k ≤ ((List.range (k + m)).filter reachable).length)

include henough

/-- A window that fits into the shards is read or rebuilt. -/
theorem window_fits (hi : w.shard < k) (hw : w.start < w.stop) (hfits : w.stop ≤ S) :
    (fetchExact (served shards reachable) w.shard w).or
        (rebuildWindow rs k m (served shards reachable) w) =
      some (sliceOf (frameOf S P w.shard) w.start w.stop) := by
  obtain ⟨hget, hlen⟩ := h.frame hi
  rw [h.fetchExact_fits (by omega) hw hfits, hget]
  cases hreach : reachable w.shard with
  | true => rfl
  | false =>
    have hslices : ((List.range (k + m)).map fun i => if i = w.shard then none
        else fetchExact (served shards reachable) i w) =
        sliced shards reachable (k + m) w.start w.stop := by
      refine map_congr_left fun i hi => ?_
      by_cases heq : i = w.shard
      · simp [heq, hreach]
      · rw [if_neg heq, h.fetchExact_fits (mem_range.mp hi) hw hfits]
    have hsize := length_sliceOf (frameOf S P w.shard) w.start (hfits.trans_eq hlen.symm)
    simp only [rebuildWindow, hslices, h.filter_sliced, h.rebuilds _ _ _ hw hfits henough]
    simp [hget, hsize, not_lt.mpr henough]

/-! ### The full read -/

omit henough in
/-- All shards that can be reached, fetched as a whole. -/
theorem served_whole (reachable : Nat → Bool) :
    ((List.range (k + m)).map fun i => served shards reachable i 0 0) =
      sliced shards reachable (k + m) 0 S := by
  refine map_congr_left fun i hi => ?_
  obtain ⟨d, hd, hsize⟩ := h.get (mem_range.mp hi)
  simp [served, hd, readShardRange, sliceOf, ← hsize]

theorem longest : ((sliced shards reachable (k + m) 0 S).map
    fun s => (s.getD []).length).foldl max 0 = S := by
  refine Nat.le_antisymm (foldl_max_le.mpr ⟨zero_le _, fun n hn => ?_⟩) ?_
  · obtain ⟨s, hs, rfl⟩ := mem_map.mp hn
    obtain ⟨i, hi, rfl⟩ := mem_map.mp hs
    obtain ⟨d, hd, -⟩ := h.get (mem_range.mp hi)
    cases hreach : reachable i <;> simp [hd, sliceOf]
  · obtain ⟨i, hi⟩ := exists_mem_of_length_pos (h.pos.trans_le henough)
    obtain ⟨hi, hreach⟩ := mem_filter.mp hi
    obtain ⟨d, hd, hsize⟩ := h.get (mem_range.mp hi)
    refine le_foldl_max.2 _ (mem_map.mpr ⟨some d, ?_, hsize⟩)
    exact mem_map.mpr ⟨i, hi, by simp [hreach, hd, sliceOf, ← hsize]⟩

theorem decode_eq {n : Nat} (hS : 0 < S) (hn : n ≤ S * k) :
    decode rs k (sliced shards reachable (k + m) 0 S) n = some (P.take n) := by
  have hwhole : shards.map (fun d => sliceOf d 0 S) = shards := by
    rw [map_congr_left (g := id) fun d hd => by simp [sliceOf, ← h.sizes d hd], map_id]
  have hflat : (shards.take k).flatten = P := by
    rw [h.frames, ← Nufs.Storage.splitFrames_eq_map]
    exact Nufs.Storage.flatten_splitFrames (h.padded.trans (mul_comm _ _)).le
  rw [decode, h.filter_sliced, if_neg (not_lt.mpr henough),
    h.rebuilds _ _ _ hS le_rfl henough, hwhole]
  simp only [Option.bind_eq_bind, Option.bind_some, hflat, h.verifies, h.padded]
  simp [hn]

end Codeword

/-! ### Reads of a chunk -/

/-- The row's size gives larger shards than the data has, and the range fits into one of them
that is not the first. -/
def Misplaced (k n size offset length : Nat) : Prop :=
  shardSizeOf n k < shardSizeOf size k ∧ shardSizeOf size k ≤ offset ∧
    offset + length ≤ offset / shardSizeOf size k * shardSizeOf size k + shardSizeOf n k

/-- A range inside a codeword, of whose shards enough can be reached, and inside the size of
the row, which gives shards of size `T`. -/
structure Ranged (rs : ReedSolomon) (k m S : Nat) (P : List UInt8) (shards : List (List UInt8))
    (reachable : Nat → Bool) (size T offset length : Nat) : Prop
    extends Codeword rs k m S P shards where
  enough : k ≤ ((List.range (k + m)).filter reachable).length
  nonempty : 0 < length
  inside : offset + length ≤ S * k
  capped : offset + length ≤ size
  max : size ≤ maxChunkSize
  row : shardSizeOf size k = T
  grows : S ≤ T

namespace Ranged

variable {S T : Nat} {P : List UInt8} {shards : List (List UInt8)}
  (h : Ranged rs k m S P shards reachable size T offset length)

include h

/-- The full read returns the range, whatever size the row gives. -/
theorem readFull_eq : readFull rs k m (served shards reachable) size offset length =
    some (sliceOf P offset (offset + length)) := by
  have hlength := h.nonempty
  have hinside := h.inside
  have hcapped := h.capped
  have hS : 0 < S := Nat.pos_of_mul_pos_right (show 0 < S * k by omega)
  obtain ⟨n, hn, hge, hfits⟩ : ∃ n, (if 0 < size ∧ size < S * k then size else S * k) = n ∧
      offset + length ≤ n ∧ n ≤ S * k := by
    refine ⟨_, rfl, ?_⟩
    split <;> omega
  simp only [readFull, h.served_whole, h.longest h.enough, hn, h.decode_eq h.enough hS hfits,
    if_pos hlength]
  rw [Nat.min_eq_left hge]
  simp [sliceOf, take_take, show ¬n ≤ offset by omega, Nat.min_eq_left hge]

/-- A chunk with a stripe is read by windows, and in full if that fails; any other in full. -/
theorem readECChunk_eq (stripe : Bool) :
    readECChunk rs k m (served shards reachable) stripe size offset length =
      if stripe then (readECWindow rs k m (served shards reachable) offset length size).or
        (some (sliceOf P offset (offset + length)))
      else some (sliceOf P offset (offset + length)) := by
  have hlength := h.nonempty
  have hcapped := h.capped
  have hmax := h.max
  have hle := le_shardSizeOf_mul h.pos maxChunkSize
  rw [readECChunk, h.readFull_eq]
  cases stripe with
  | false => simp
  | true =>
    rw [if_pos ⟨rfl, hlength, by omega, by omega, by omega⟩]
    rfl

/-- A window over the end of the shards fails the read of windows. -/
theorem readECWindow_fails (hbeyond : ∃ w ∈ windowsOf k T offset (offset + length), S < w.stop) :
    readECWindow rs k m (served shards reachable) offset length size = none := by
  obtain ⟨w, hw, hstop⟩ := hbeyond
  have hlength := h.nonempty
  have hlt := start_lt_stop (by omega) hw
  rw [readECWindow, Nat.min_eq_left h.capped, if_neg (by omega), h.row,
    mapM_of_exists ⟨w, hw, h.window_beyond (mem_windowsOf hw).1 hlt hstop⟩]
  rfl

/-- Windows that fit into the shards are read, at the places the row's size gives. -/
theorem readECWindow_fits (hfits : ∀ w ∈ windowsOf k T offset (offset + length), w.stop ≤ S) :
    readECWindow rs k m (served shards reachable) offset length size =
      some ((List.range k).flatMap fun i =>
        sliceOf (frameOf S P i) (offset - i * T) (min (offset + length - i * T) T)) := by
  have hlength := h.nonempty
  rw [readECWindow, Nat.min_eq_left h.capped, if_neg (by omega), h.row,
    ExceptBind.mapM_eq_pure fun w hw =>
      h.window_fits h.enough (mem_windowsOf hw).1 (start_lt_stop (by omega) hw) (hfits w hw),
    Option.pure_def, Option.map_some, flatMap_windowsOf _ h.grows]

/-- One window in larger shards is read from its place in the shard that the size gives. -/
theorem readECWindow_single (hS : S < T) (hsingle : offset + length ≤ offset / T * T + S) :
    readECWindow rs k m (served shards reachable) offset length size =
      some (sliceOf (frameOf S P (offset / T)) (offset - offset / T * T)
        (offset + length - offset / T * T)) := by
  have hlength := h.nonempty
  rw [h.readECWindow_fits ((windows_fit_iff hS (by omega) h.inside).mpr hsingle)]
  have hdiv := div_add_mod' offset T
  have hi : offset / T < k := shard_lt hS (by omega) h.inside
  rw [flatMap_range_single hi, Nat.min_eq_left (by omega)]
  -- a shard before the window's ends before the range, and one after it starts after it
  intro j hj
  refine drop_eq_nil_of_le ((length_take_le _ _).trans ?_)
  rcases lt_or_gt_of_ne hj with hj | hj
  · have hj := mul_le_mul_right T (succ_le_of_lt hj)
    rw [Nat.succ_mul] at hj
    omega
  · have hj := mul_le_mul_right T (succ_le_of_lt hj)
    rw [Nat.succ_mul] at hj
    omega

/-- A read that is not misplaced returns the range. -/
theorem readECChunk_placed {stripe : Bool} (hplaced : ¬(stripe = true ∧ S < T ∧ T ≤ offset ∧
      offset + length ≤ offset / T * T + S)) :
    readECChunk rs k m (served shards reachable) stripe size offset length =
      some (sliceOf P offset (offset + length)) := by
  rw [h.readECChunk_eq]
  cases stripe with
  | false => rfl
  | true =>
    have hlength := h.nonempty
    rw [if_pos rfl]
    rcases lt_or_eq_of_le h.grows with hS | rfl
    · by_cases hsingle : offset + length ≤ offset / T * T + S
      · -- the window is in the first shard, at the same place for both sizes
        have hfirst : offset < T := Nat.lt_of_not_le fun hge => hplaced ⟨rfl, hS, hge, hsingle⟩
        rw [h.readECWindow_single hS hsingle, Nat.div_eq_of_lt hfirst]
        rw [Nat.div_eq_of_lt hfirst, Nat.zero_mul, Nat.zero_add] at hsingle
        simp [sliceOf, frameOf, take_take, Nat.min_eq_left hsingle]
      · have hbeyond := mt (windows_fit_iff hS (by omega) h.inside).mp hsingle
        rw [h.readECWindow_fails (by simpa using hbeyond)]
        rfl
    · have hfits : ∀ w ∈ windowsOf k S offset (offset + length), w.stop ≤ S := by
        intro w hw
        rw [(mem_windowsOf hw).2.2.2.2]
        exact min_le_right _ _
      rw [h.readECWindow_fits hfits, flatMap_same _ h.inside]
      rfl

/-- A misplaced read starts with an earlier byte. -/
theorem readECChunk_misplaced (hS : S < T) (hge : T ≤ offset)
    (hsingle : offset + length ≤ offset / T * T + S) :
    ∃ out j, readECChunk rs k m (served shards reachable) true size offset length = some out ∧
      j < offset ∧ out[0]? = P[j]? := by
  have hlength := h.nonempty
  have hdiv := div_add_mod' offset T
  have hearlier : offset / T * S < offset / T * T :=
    mul_lt_mul_of_pos_left hS (div_pos hge (zero_lt_of_lt hS))
  have hread := h.readECChunk_eq true
  rw [if_pos rfl, h.readECWindow_single hS hsingle, Option.some_or] at hread
  refine ⟨_, offset / T * S + (offset - offset / T * T), hread, by omega, ?_⟩
  rw [sliceOf, List.getElem?_drop, List.getElem?_take_of_lt (by omega), frameOf,
    List.getElem?_take_of_lt (by omega), List.getElem?_drop]
  rfl

end Ranged

/-- A range inside data that was encoded. -/
theorem encode_ranged (hrs : rs.Sound k m) (hk : 0 < k) (hmax : size ≤ maxChunkSize)
    (hcap : data.length ≤ size) (henough : k ≤ ((List.range (k + m)).filter reachable).length)
    (hlength : 0 < length) (hinside : offset + length ≤ data.length) :
    Ranged rs k m (shardSizeOf data.length k) (padded k data) (encode rs k data) reachable size
      (shardSizeOf size k) offset length :=
  ⟨encode_codeword hrs hk data, henough, hlength, hinside.trans (le_shardSizeOf_mul hk _),
    hinside.trans hcap, hmax, rfl, shardSizeOf_mono k hcap⟩

/-- The data that is one byte `1` among zeros. -/
def mark (n offset : Nat) : List UInt8 := (List.replicate n 0).set offset 1

theorem length_mark (n offset : Nat) : (mark n offset).length = n := by
  rw [mark, length_set, length_replicate]

/-- A misplaced read of marked data misses the mark. -/
theorem misplaced_misses {n : Nat} (hrs : rs.Sound k m) (hk : 0 < k) (hmax : size ≤ maxChunkSize)
    (hcap : n ≤ size) (henough : k ≤ ((List.range (k + m)).filter reachable).length)
    (hlength : 0 < length) (hinside : offset + length ≤ n) (h : Misplaced k n size offset length) :
    readECChunk rs k m (served (encode rs k (mark n offset)) reachable) true size offset length ≠
      some (sliceOf (mark n offset) offset (offset + length)) := by
  have hn := length_mark n offset
  rw [← hn] at h hcap hinside
  obtain ⟨out, j, hread, hj, hout⟩ := (encode_ranged hrs hk hmax hcap henough hlength
    hinside).readECChunk_misplaced h.1 h.2.1 h.2.2
  rw [hn] at hinside
  rw [hread]
  intro heq
  rw [Option.some.inj heq, sliceOf, List.getElem?_drop, List.getElem?_take_of_lt (by omega),
    padded, List.getElem?_append_left (by omega)] at hout
  simp [mark, show offset < n by omega, show j < n by omega, show offset ≠ j by omega] at hout

/--
**When erasure-coded reads return the data.** Every payload of a length is read back over a
window exactly if the chunk has no stripe or the window is not misplaced.
-/
theorem ec_read_exact_iff {rs : ReedSolomon} {k m : Nat} (hrs : rs.Sound k m) (hk : 0 < k)
    {n size offset length : Nat} (hmax : n ≤ maxChunkSize)
    (hsize : size = n ∨ size = maxChunkSize) (stripe : Bool) {reachable : Nat → Bool}
    (henough : k ≤ ((List.range (k + m)).filter reachable).length)
    (hlength : 0 < length) (hinside : offset + length ≤ n) : (∀ data : List UInt8, data.length = n →
      readECChunk rs k m (served (encode rs k data) reachable) stripe size offset length =
        some (sliceOf data offset (offset + length))) ↔
      ¬(stripe = true ∧ Misplaced k n size offset length) := by
  have hcap : n ≤ size ∧ size ≤ maxChunkSize := by omega
  constructor
  · rintro h ⟨rfl, hmis⟩
    exact misplaced_misses hrs hk hcap.2 hcap.1 henough hlength hinside hmis
      (h (mark n offset) (length_mark n offset))
  · intro h data hdata
    subst hdata
    rw [← sliceOf_padded k hinside]
    exact (encode_ranged hrs hk hcap.2 hcap.1 henough hlength hinside).readECChunk_placed h

/-! ### One parity shard -/

/-- The code for two data shards whose parity shard is their sum. -/
def xorCode : ReedSolomon where
  parity
    | [a, b] => [List.zipWith (· ^^^ ·) a b]
    | _ => []
  reconstruct
    | [some a, some b, _] => some [a, b, List.zipWith (· ^^^ ·) a b]
    | [some a, none, some p] => some [a, List.zipWith (· ^^^ ·) a p, p]
    | [none, some b, some p] => some [List.zipWith (· ^^^ ·) b p, b, p]
    | _ => none
  verify
    | [a, b, p] => p == List.zipWith (· ^^^ ·) a b
    | _ => false

theorem xor_cancel {a b : List UInt8} (h : a.length = b.length) :
    List.zipWith (· ^^^ ·) a (List.zipWith (· ^^^ ·) a b) = b := by
  refine ext_getElem (by simp [h]) fun i hi _ => ?_
  rw [getElem_zipWith, getElem_zipWith, ← UInt8.xor_assoc, UInt8.xor_self, UInt8.zero_xor]

theorem xorCode_sound : xorCode.Sound 2 1 where
  parity := by
    intro data size hlen hsize
    obtain ⟨a, b, rfl⟩ := length_eq_two.mp hlen
    simp_all [xorCode]
  verifies := by
    intro data size hlen _
    obtain ⟨a, b, rfl⟩ := length_eq_two.mp hlen
    simp [xorCode]
  rebuilds := by
    intro data size start stop present hlen hsize _ hstop henough
    obtain ⟨a, b, rfl⟩ := length_eq_two.mp hlen
    have hslice : ∀ c d : List UInt8, sliceOf (List.zipWith (· ^^^ ·) c d) start stop =
        List.zipWith (· ^^^ ·) (sliceOf c start stop) (sliceOf d start stop) := by
      intro c d
      rw [sliceOf, take_zipWith, drop_zipWith]
      rfl
    have hlens : (sliceOf a start stop).length = (sliceOf b start stop).length := by
      rw [length_sliceOf a start (hsize a (by simp) ▸ hstop),
        length_sliceOf b start (hsize b (by simp) ▸ hstop)]
    have hcomm : List.zipWith (· ^^^ ·) (sliceOf a start stop) (sliceOf b start stop) =
        List.zipWith (· ^^^ ·) (sliceOf b start stop) (sliceOf a start stop) :=
      zipWith_comm_of_comm (UInt8.xor_comm)
    -- two of the three shards are present
    cases h0 : present 0 <;> cases h1 : present 1 <;> cases h2 : present 2 <;>
      simp [range_succ, h0, h1, h2] at henough <;>
      simp [sliced, xorCode, range_succ, h0, h1, h2, hslice, xor_cancel hlens]
    rw [hcomm, xor_cancel hlens.symm]

/-- A window of a chunk whose row has the data's length, with the first shard out of reach. -/
theorem ec_read_exact_small :
    readECChunk xorCode 2 1 (served (encode xorCode 2 [1, 2, 3, 4, 5]) (· != 0)) true 5 1 3 =
      some [2, 3, 4] :=
  (ec_read_exact_iff xorCode_sound (by decide) (by decide) (Or.inl rfl) true (by decide)
    (by decide) (by decide)).mpr (fun h => absurd h.2.1 (by decide)) [1, 2, 3, 4, 5] rfl

/-- A payload of half the cap and one byte, whose row has the cap: the last byte is read from
the start of the second shard, which is a byte of the first half. -/
theorem misplaced_window_read : ∃ data : List UInt8, data.length = 33554433 ∧
    readECChunk xorCode 2 1 (served (encode xorCode 2 data) fun _ => true) true maxChunkSize
      33554432 1 ≠ some (sliceOf data 33554432 33554433) :=
  ⟨mark 33554433 33554432, length_mark _ _, misplaced_misses xorCode_sound (by decide) (by decide)
    (by decide) (by decide) (by decide) (by decide) ⟨by decide, by decide, by decide⟩⟩

end Nufs.Chunkstore
