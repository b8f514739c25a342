/-
Records read back as they were written.

`BuildFramedRecord` cuts a payload into frames and describes each stored frame by an
index entry.  What a reader needs of the two is one fact, `ReadsAs`: fetching and
opening the frame of an entry gives the frame that was cut.  Whole payloads and
ranges are then a matter of joining frames, which knows nothing of compression or
encryption.
-/
import Nufs.Proofs.Storage.Framing
import Nufs.Storage.Reader

namespace Nufs.Storage

open ByteFile List RecordHeader Nat

/-! ### Cutting a payload -/

/-- The frame of a payload with a given number. -/
def frameOf (frameSize : Nat) (payload : List UInt8) (i : Nat) : List UInt8 :=
  (payload.drop (i * frameSize)).take frameSize

/-- The bytes of a payload from `start` up to `stop`. -/
def sliceOf (payload : List UInt8) (start stop : Nat) : List UInt8 :=
  (payload.take stop).drop start

theorem splitFrames_eq_map (frameSize n : Nat) (payload : List UInt8) :
    splitFrames frameSize n payload = (List.range n).map (frameOf frameSize payload) := by
  induction n generalizing payload with
  | zero => rfl
  | succ n ih =>
    rw [splitFrames, ih, range_succ_eq_map, map_cons, map_map]
    congr 1
    · simp [frameOf]
    · apply map_congr_left
      intro i _
      simp only [frameOf, Function.comp_apply, drop_drop, succ_mul]
      rw [add_comm]

variable {frameSize n : Nat} {frame stored : List UInt8} {compressed : Bool} {h : RecordHeader}

theorem flatten_splitFrames {payload : List UInt8} (h : payload.length ≤ n * frameSize) :
    (splitFrames frameSize n payload).flatten = payload := by
  induction n generalizing payload with
  | zero =>
    have hnil : payload = [] := length_eq_zero_iff.mp (by omega)
    rw [hnil]
    rfl
  | succ n ih =>
    have hrest : (payload.drop frameSize).length ≤ n * frameSize := by
      rw [length_drop]
      rw [succ_mul] at h
      omega
    rw [splitFrames, flatten_cons, ih hrest, take_append_drop]

theorem length_le_frameCount (hsize : 0 < frameSize) (payload : List UInt8) :
    payload.length ≤ frameCount frameSize payload * frameSize := by
  cases payload with
  | nil => exact zero_le _
  | cons b payload =>
    show (b :: payload).length ≤ ((b :: payload).length + frameSize - 1) / frameSize * frameSize
    have hdiv := div_add_mod' ((b :: payload).length + frameSize - 1) frameSize
    have hmod := mod_lt ((b :: payload).length + frameSize - 1) hsize
    omega

theorem drop_take_append_drop {α : Type} (xs : List α) (start m : Nat) :
    (xs.take m).drop start ++ (xs.drop m).drop (start - m) = xs.drop start := by
  by_cases hm : m ≤ xs.length
  · have hlen : (xs.take m).length = m := length_take_of_le hm
    calc (xs.take m).drop start ++ (xs.drop m).drop (start - m)
        = (xs.take m ++ xs.drop m).drop start := by rw [drop_append, hlen]
      _ = xs.drop start := by rw [take_append_drop]
  · have hle : xs.length ≤ m := by omega
    simp [take_of_length_le hle, drop_eq_nil_of_le hle]

/-- A frame, cut to a range, continues that range. -/
theorem sliceOf_append_frameOf (frameSize : Nat) (payload : List UInt8) (start stop i : Nat) :
    sliceOf payload start (min stop (i * frameSize)) ++
        ((frameOf frameSize payload i).take (stop - i * frameSize)).drop (start - i * frameSize) =
      sliceOf payload start (min stop ((i + 1) * frameSize)) := by
  unfold sliceOf frameOf
  rw [succ_mul]
  generalize i * frameSize = m
  by_cases hm : stop ≤ m
  · rw [Nat.min_eq_left hm, Nat.min_eq_left (by omega), Nat.sub_eq_zero_of_le hm]
    simp
  have hfront : payload.take (min stop m) = (payload.take (min stop (m + frameSize))).take m := by
    rw [take_take]
    congr 1
    omega
  have hframe : ((payload.drop m).take frameSize).take (stop - m) =
      (payload.take (min stop (m + frameSize))).drop m := by
    rw [take_take, drop_take]
    congr 1
    omega
  rw [hfront, hframe, drop_take_append_drop]

/-! ### Reading one frame -/

/-- An entry's frame, fetched and opened, is the given frame. -/
structure ReadsAs (c : FrameCodec) (r : Reader) (layout : RecordLayout) (e : FrameIndexEntry)
    (frame : List UInt8) : Prop where
  inside : e.offset.toNat + e.storedLen.toNat ≤ layout.totalStored
  fetched : ∃ stored, r.fetchFrame layout e = .ok stored ∧ stored.length = e.storedLen.toNat ∧
    openFrame c layout.decKey e.codec stored = .ok frame

namespace ReadsAs

variable {c : FrameCodec} {r : Reader} {layout : RecordLayout} {e : FrameIndexEntry}

theorem readLogicalFrame (h : ReadsAs c r layout e frame) :
    r.readLogicalFrame c layout e = .ok frame := by
  obtain ⟨stored, hfetch, -, hopen⟩ := h.fetched
  unfold Reader.readLogicalFrame
  rw [if_neg (not_lt.mpr h.inside), hfetch]
  exact hopen

/-- A plain frame is stored as it is. -/
theorem fetch_plain (h : ReadsAs c r layout e frame) (hkey : layout.decKey = none)
    (hcodec : e.codec = .none) :
    r.fetchFrame layout e = .ok frame ∧ e.storedLen.toNat = frame.length := by
  obtain ⟨stored, hfetch, hlen, hopen⟩ := h.fetched
  rw [hkey, hcodec] at hopen
  obtain rfl : stored = frame := Except.ok.inj hopen
  exact ⟨hfetch, hlen.symm⟩

end ReadsAs

/-! ### Joining frames -/

section Joining

variable {c : FrameCodec} {r : Reader} {layout : RecordLayout}

variable {es : List FrameIndexEntry}

variable {logicalLen : Nat} {frames : List (List UInt8)}

theorem readPlainFrames_eq (hkey : layout.decKey = none) (hplain : ∀ e ∈ es, e.codec = .none)
    (h : List.Forall₂ (ReadsAs c r layout) es frames) :
    ∀ out : List UInt8, out.length + frames.flatten.length ≤ logicalLen →
      r.readPlainFrames layout logicalLen es out = .ok (out ++ frames.flatten) := by
  induction h with
  | nil =>
    intro out _
    simp [Reader.readPlainFrames]
  | @cons e frame es frames hread _ ih =>
    intro out hlen
    obtain ⟨hfetch, hstored⟩ := hread.fetch_plain hkey (hplain e (by simp))
    rw [flatten_cons, length_append] at hlen
    rw [Reader.readPlainFrames, if_neg (not_lt.mpr hread.inside), if_neg (by omega), hfetch]
    have hrest := ih (fun e' he' => hplain e' (by simp [he'])) (out ++ frame)
      (by rw [length_append]; omega)
    simp only []
    rw [hrest, flatten_cons, append_assoc]

theorem readLogicalFrames_eq (h : List.Forall₂ (ReadsAs c r layout) es frames) :
    ∀ out : List UInt8, out.length + frames.flatten.length ≤ logicalLen →
      r.readLogicalFrames c layout logicalLen es out = .ok (out ++ frames.flatten) := by
  induction h with
  | nil =>
    intro out _
    simp [Reader.readLogicalFrames]
  | @cons e frame es frames hread _ ih =>
    intro out hlen
    rw [flatten_cons, length_append] at hlen
    have hcopy : copyInto logicalLen out frame = out ++ frame := by
      unfold copyInto
      rw [take_of_length_le (by omega)]
    rw [Reader.readLogicalFrames, hread.readLogicalFrame]
    have hrest := ih (out ++ frame) (by rw [length_append]; omega)
    simp only [hcopy]
    rw [hrest, flatten_cons, append_assoc]

variable {payload : List UInt8} {start stop : Nat}

theorem length_sliceOf (payload : List UInt8) (start : Nat) (h : stop ≤ payload.length) :
    (sliceOf payload start stop).length = stop - start := by
  rw [sliceOf, length_drop, length_take_of_le h]

theorem length_frameOf (frameSize : Nat) (payload : List UInt8) (i : Nat) :
    (frameOf frameSize payload i).length = min frameSize (payload.length - i * frameSize) := by
  rw [frameOf, length_take, length_drop]

/-- One round of the range loop adds what the frame has of the range. -/
theorem readRangeLoop_cons (hsize : 0 < frameSize) (hstop : stop ≤ payload.length)
    {e : FrameIndexEntry} {i : Nat} (hread : ReadsAs c r layout e (frameOf frameSize payload i))
    (hstart : start < (i + 1) * frameSize) (hlt : i * frameSize < stop) (hrange : start < stop) :
    r.readRangeLoop c layout frameSize start stop (e :: es) i
        (sliceOf payload start (min stop (i * frameSize))) =
      r.readRangeLoop c layout frameSize start stop es (i + 1)
        (sliceOf payload start (min stop ((i + 1) * frameSize))) := by
  have hcut : min stop (i * frameSize) ≤ payload.length := by omega
  have hlen := length_sliceOf payload start hcut
  have hnext := sliceOf_append_frameOf frameSize payload start stop i
  have hframe := length_frameOf frameSize payload i
  rw [succ_mul] at hstart
  rw [Reader.readRangeLoop, if_neg (not_lt.mpr hread.inside)]
  by_cases hfast : layout.decKey = none ∧ e.codec = .none ∧ start - i * frameSize = 0 ∧
      e.storedLen.toNat ≤ stop - i * frameSize
  · obtain ⟨hkey, hcodec, hlo, hhi⟩ := hfast
    obtain ⟨hfetch, hstored⟩ := hread.fetch_plain hkey hcodec
    rw [if_pos ⟨hkey, hcodec, hlo, hhi⟩, if_neg (by omega), hfetch]
    rw [hlo, drop_zero, take_of_length_le (by omega)] at hnext
    simp only [hnext]
  rw [if_neg hfast, hread.readLogicalFrame]
  have hmin : (frameOf frameSize payload i).take
        (min (stop - i * frameSize) (frameOf frameSize payload i).length) =
      (frameOf frameSize payload i).take (stop - i * frameSize) := by
    rw [← take_take, take_length]
  have hcopy : copyInto (stop - start) (sliceOf payload start (min stop (i * frameSize)))
        (((frameOf frameSize payload i).take (stop - i * frameSize)).drop (start - i * frameSize)) =
      sliceOf payload start (min stop ((i + 1) * frameSize)) := by
    rw [← hnext]
    unfold copyInto
    rw [take_of_length_le]
    rw [length_drop, length_take]
    omega
  simp only [hmin, hcopy]
  rw [if_neg (by omega)]

theorem readRangeLoop_eq (hsize : 0 < frameSize) (hstop : stop ≤ payload.length)
    (hrange : start < stop) (k : Nat) :
    ∀ (i : Nat) (es : List FrameIndexEntry), List.Forall₂ (ReadsAs c r layout) es
        ((List.range' i k).map (frameOf frameSize payload)) →
      start < (i + 1) * frameSize → (∀ j < k, (i + j) * frameSize < stop) →
      r.readRangeLoop c layout frameSize start stop es i
          (sliceOf payload start (min stop (i * frameSize))) =
        .ok (sliceOf payload start (min stop ((i + k) * frameSize))) := by
  induction k with
  | zero =>
    intro i es hes _ _
    obtain rfl : es = [] := by simpa using hes
    rfl
  | succ k ih =>
    intro i es hes hstart hlt
    rw [range'_succ, map_cons] at hes
    obtain ⟨e, es, hread, hrest, rfl⟩ := List.forall₂_cons_right_iff.mp hes
    rw [readRangeLoop_cons hsize hstop hread hstart (by simpa using hlt 0 (by omega)) hrange]
    have hi : i + (k + 1) = i + 1 + k := by omega
    rw [hi]
    refine ih (i + 1) es hrest ?_ ?_
    · rw [succ_mul]
      omega
    · intro j hj
      have := hlt (j + 1) (by omega)
      rwa [show i + 1 + j = i + (j + 1) by omega]

end Joining

/-! ### The frames a record is built of -/

/-- The compression library and the AEAD give back what they were given. -/
structure FrameCodec.Lossless (c : FrameCodec) : Prop where
  zstd : ∀ payload, c.zstdDecode (c.zstdEncode payload) = .ok payload
  aead : ∀ key nonce frame sealed, c.encryptFrame key nonce frame = .ok sealed →
    c.decryptFrame key sealed = .ok frame

variable {c : FrameCodec} {key : Option (List UInt8)} {r : Reader} {pre post : List UInt8}

/-- A frame that is stored packed is its encoding, and no longer than it was. -/
theorem packed_some {out : List UInt8}
    (h : (if compressed = true then compressFrame c frame else none) = some out) :
    out = c.zstdEncode frame ∧ out.length ≤ frame.length := by
  split_ifs at h
  unfold compressFrame at h
  dsimp only at h
  split_ifs at h
  cases h
  exact ⟨rfl, by omega⟩

theorem openFrame_storeFrame (hc : c.Lossless) {nonce : List UInt8} {codec : CompressionCodec}
    (h : storeFrame c compressed key nonce frame = .ok (stored, codec)) :
    openFrame c key codec stored = .ok frame := by
  unfold storeFrame at h
  generalize hpacked : (if compressed = true then compressFrame c frame else none) = packed at h
  -- Whatever goes to the AEAD opens to the frame without a key.
  have hopen : ∀ plain, packed = some plain → openFrame c none .zstd plain = .ok frame := by
    intro plain hplain
    rw [(packed_some (hpacked.trans hplain)).1]
    exact hc.zstd frame
  cases key with
  | none =>
    cases packed with
    | none =>
      cases h
      rfl
    | some plain =>
      cases h
      exact hopen _ rfl
  | some k =>
    cases packed with
    | none =>
      dsimp only at h
      split at h
      · cases h
      rename_i sealed hseal
      cases h
      unfold openFrame
      simp only [hc.aead k nonce frame _ hseal]
      rfl
    | some plain =>
      dsimp only at h
      split at h
      · cases h
      rename_i sealed hseal
      cases h
      have hplain := hopen plain rfl
      unfold openFrame at hplain ⊢
      simp only [hc.aead k nonce plain _ hseal]
      exact hplain

theorem Reader.readAt_append {mid : List UInt8} (h : r.bytes = pre ++ (mid ++ post)) :
    r.readAt mid.length pre.length = .ok mid := by
  unfold readAt
  rw [h, readFullAt_append]

/-- Every index entry leads to the frame it was made for. -/
theorem buildFrames_readsAs (hc : c.Lossless) {nonce : Nat → List UInt8} {layout : RecordLayout}
    (hfirst : layout.firstFrameAt = pre.length) (hkey : layout.decKey = key)
    {frames : List (List UInt8)} :
    ∀ (i : Nat) (offset : UInt32) (stored : List UInt8) (entries : List FrameIndexEntry)
      (before : List UInt8),
      buildFrames c compressed key nonce frames i offset = .ok (stored, entries) →
      offset.toNat + stored.length < 2 ^ 32 → offset.toNat = before.length →
      layout.totalStored = before.length + stored.length →
      r.bytes = pre ++ (before ++ (stored ++ post)) →
      List.Forall₂ (ReadsAs c r layout) entries frames := by
  induction frames with
  | nil =>
    intro i offset stored entries before h _ _ _ _
    cases h
    exact .nil
  | cons frame frames ih =>
    intro i offset stored entries before h hlen hoffset htotal hbytes
    rw [buildFrames] at h
    split at h
    · simp at h
    rename_i first codec hstore
    split at h
    · simp at h
    rename_i rest entries' hrest
    cases h
    rw [length_append] at hlen htotal
    have hfirstLen : (UInt32.ofNat first.length).toNat = first.length := by
      rw [UInt32.toNat_ofNat']
      omega
    have hnext : (offset + UInt32.ofNat first.length).toNat = (before ++ first).length := by
      rw [UInt32.toNat_add, hfirstLen, length_append]
      omega
    refine .cons ⟨?_, first, ?_, hfirstLen.symm, ?_⟩ ?_
    · show offset.toNat + (UInt32.ofNat first.length).toNat ≤ layout.totalStored
      omega
    · have hread : r.readAt first.length (pre ++ before).length = .ok first := by
        have hsplit : r.bytes = (pre ++ before) ++ (first ++ (rest ++ post)) := by
          rw [hbytes]
          simp only [append_assoc]
        exact Reader.readAt_append hsplit
      rw [length_append] at hread
      unfold Reader.fetchFrame
      simp only [hfirstLen, hfirst, hoffset, hread]
      simp [verifyFrameCRC, bind, Except.bind, pure, Except.pure]
    · rw [hkey]
      exact openFrame_storeFrame hc hstore
    · refine ih (i + 1) _ rest entries' (before ++ first) hrest ?_ hnext ?_ ?_
      · rw [hnext, length_append]
        omega
      · rw [length_append]
        omega
      · rw [hbytes]
        simp only [append_assoc]

/-! ### Whole records -/

theorem recordFraming_eq {stored : Nat} (hcount : h.frameCount.toNat = n)
    (hlen : h.storedLen.toNat = stored) :
    recordFraming h.storedLen h.frameCount.toNat = UInt32.ofNat
        (recordHeaderSize + n * frameIndexEntrySize + stored + recordTrailerSize) := by
  have hstored : h.storedLen = UInt32.ofNat stored := by
    rw [← hlen, UInt32.ofNat_toNat]
  unfold recordFraming
  rw [hcount, hstored]
  simp only [UInt32.ofNat_add]

/-- The layout of a record that lies in the file at its offset. -/
theorem readRecordLayout_eq {entries : List FrameIndexEntry} (hpre : segmentHeaderSize ≤ pre.length)
    (hbytes : r.bytes = pre ++ (encodeRecordFramed h (FrameIndex.encode entries) stored ++ post))
    (hmagic : h.magic = recordMagic) (hversion : h.version = formatVersion)
    (hcount : h.frameCount.toNat = entries.length)
    (hcrc : h.frameIndexCRC = crc32c (FrameIndex.encode entries))
    (htotal : FrameIndex.storedTotal entries = stored.length)
    (hlen : h.storedLen.toNat = stored.length) (hkey : r.resolveKey h.keyID = .ok key) :
    r.readRecordLayout pre.length h.storedLen h.logicalLen =
      .ok ⟨h, entries, pre.length + recordHeaderSize + entries.length * frameIndexEntrySize,
        stored.length, key⟩ := by
  let framing := recordHeaderSize + entries.length * frameIndexEntrySize + stored.length +
    recordTrailerSize
  let trailer := RecordTrailer.encode (UInt32.ofNat framing)
  let idx := FrameIndex.encode entries
  have hidx : idx.length = entries.length * frameIndexEntrySize := FrameIndex.length_encode entries
  have htrailer : trailer.length = recordTrailerSize := RecordTrailer.length_encode _
  have hsplit : r.bytes = pre ++ (h.encode ++ (idx ++ (stored ++ (trailer ++ post)))) := by
    rw [hbytes, encodeRecordFramed, recordFraming_eq hcount hlen]
    simp only [append_assoc]
    rfl
  have hheader : r.readAt recordHeaderSize pre.length = .ok h.encode := by
    have hread := Reader.readAt_append hsplit
    rwa [length_encode] at hread
  have hindex : r.readAt (entries.length * frameIndexEntrySize) (pre.length + recordHeaderSize) =
      .ok idx := by
    have hmid : r.bytes = (pre ++ h.encode) ++ (idx ++ (stored ++ (trailer ++ post))) := by
      rw [hsplit, append_assoc]
    have hread := Reader.readAt_append hmid
    rwa [length_append, length_encode, hidx] at hread
  have htail : r.readAt recordTrailerSize (pre.length + recordHeaderSize +
      entries.length * frameIndexEntrySize + stored.length) = .ok trailer := by
    have hmid : r.bytes = (pre ++ h.encode ++ idx ++ stored) ++ (trailer ++ post) := by
      rw [hsplit]
      simp only [append_assoc]
    have hread := Reader.readAt_append hmid
    simp only [length_append, length_encode, hidx, htrailer] at hread
    exact hread
  have hsize : pre.length + recordHeaderSize + entries.length * frameIndexEntrySize +
      stored.length + recordTrailerSize ≤ r.bytes.length := by
    have hlength := congrArg List.length hsplit
    simp only [length_append, length_encode, hidx, htrailer] at hlength
    omega
  have hdecode : FrameIndex.decode idx h.frameIndexCRC = .ok entries := by
    rw [hcrc]
    exact FrameIndex.decode_encode entries
  have hsum : (entries.map fun e => e.storedLen.toNat).sum = stored.length := htotal
  unfold Reader.readRecordLayout
  rw [if_neg (not_lt.mpr hpre), hheader]
  simp only [bind, Except.bind, decode_encode h hmagic hversion, hcount, hindex,
    hdecode, hsum, hlen, hkey, htail, trailer, RecordTrailer.decode_encode, not_lt.mpr hsize,
    and_false, framing, ne_eq, not_true_eq_false, if_false]

/-- A record with the given payload lies at an offset of the file. -/
structure Reader.HasRecord (c : FrameCodec) (r : Reader) (offset : Nat)
    (storedLen logicalLen : UInt32) (payload : List UInt8) : Prop where
  logicalLen_eq : logicalLen.toNat = payload.length
  layout : ∃ layout, r.readRecordLayout offset storedLen logicalLen = .ok layout ∧
    layout.header.effectiveFrameSize = defaultFrameSize ∧
    List.Forall₂ (ReadsAs c r layout) layout.frameIndex
      (splitFrames defaultFrameSize (frameCount defaultFrameSize payload) payload)

theorem flatten_splitFrames_frameCount (payload : List UInt8) :
    (splitFrames defaultFrameSize (frameCount defaultFrameSize payload) payload).flatten =
      payload :=
  flatten_splitFrames (length_le_frameCount (by decide) payload)

namespace Reader.HasRecord

variable {offset : Nat} {storedLen logicalLen : UInt32} {payload : List UInt8}

/-- The whole payload is read back. -/
theorem readPayloadFrames (h : r.HasRecord c offset storedLen logicalLen payload) :
    r.readPayloadFrames c offset storedLen logicalLen = .ok payload := by
  obtain ⟨layout, hlayout, -, hreads⟩ := h.layout
  have hflat := flatten_splitFrames_frameCount payload
  have hpayload : r.readAllFrames c layout logicalLen.toNat = .ok payload := by
    unfold Reader.readAllFrames
    have hroom : ([] : List UInt8).length +
        (splitFrames defaultFrameSize (frameCount defaultFrameSize payload) payload).flatten.length ≤
          logicalLen.toNat := by
      rw [hflat, h.logicalLen_eq, length_nil]
      omega
    split_ifs with hplain
    · have hcodec : ∀ e ∈ layout.frameIndex, e.codec = .none := by
        intro e he
        simpa using all_eq_true.mp hplain.2 e he
      rw [readPlainFrames_eq hplain.1 hcodec hreads [] hroom, hflat, nil_append]
    · rw [readLogicalFrames_eq hreads [] hroom, hflat, nil_append]
  unfold Reader.readPayloadFrames
  simp only [hlayout, bind, Except.bind, hpayload]
  rw [if_neg (by rw [h.logicalLen_eq]; simp)]

/-- The frames a range touches are there, and hold it. -/
theorem readRangeLoop (h : r.HasRecord c offset storedLen logicalLen payload) {start stop : Nat}
    (hrange : start < stop) (hstop : stop ≤ payload.length) :
    ∃ layout, r.readRecordLayout offset storedLen logicalLen = .ok layout ∧
      layout.header.effectiveFrameSize = defaultFrameSize ∧
      (stop - 1) / defaultFrameSize < layout.frameIndex.length ∧
      r.readRangeLoop c layout defaultFrameSize start stop
          ((layout.frameIndex.take ((stop - 1) / defaultFrameSize + 1)).drop
            (start / defaultFrameSize))
          (start / defaultFrameSize) [] = .ok (sliceOf payload start stop) := by
  obtain ⟨layout, hlayout, hsize, hreads⟩ := h.layout
  refine ⟨layout, hlayout, hsize, ?_⟩
  have hpos : 0 < defaultFrameSize := by decide
  have hcover := length_le_frameCount hpos payload
  generalize frameCount defaultFrameSize payload = n at hreads hcover
  generalize defaultFrameSize = size at hpos hreads hcover
  have hcount : layout.frameIndex.length = n := by
    rw [hreads.length_eq, length_splitFrames]
  have hlast : (stop - 1) / size < n := (Nat.div_lt_iff_lt_mul hpos).mpr (by omega)
  have hfirst : start / size ≤ (stop - 1) / size := Nat.div_le_div_right (by omega)
  have hstartMul : start < start / size * size + size := Nat.lt_div_mul_add hpos
  have hstopMul : stop - 1 < (stop - 1) / size * size + size := Nat.lt_div_mul_add hpos
  have hstopDiv : (stop - 1) / size * size ≤ stop - 1 := Nat.div_mul_le_self (stop - 1) size
  have hstartDiv : start / size * size ≤ start := Nat.div_mul_le_self start size
  refine ⟨by omega, ?_⟩
  generalize (stop - 1) / size = last at hlast hfirst hstopMul hstopDiv ⊢
  generalize start / size = first at hfirst hstartMul hstartDiv ⊢
  have hframes : List.Forall₂ (ReadsAs c r layout) ((layout.frameIndex.take (last + 1)).drop first)
      ((List.range' first (last + 1 - first)).map (frameOf size payload)) := by
    have hcut := List.forall₂_drop first (List.forall₂_take (last + 1) hreads)
    rw [splitFrames_eq_map, ← map_take, ← map_drop, take_range,
      Nat.min_eq_left (by omega : last + 1 ≤ n), range_eq_range', drop_range'] at hcut
    simpa using hcut
  have hbelow : ∀ j < last + 1 - first, (first + j) * size < stop := by
    intro j hj
    have hle : (first + j) * size ≤ last * size := mul_le_mul_right size (by omega)
    omega
  have hloop := readRangeLoop_eq hpos hstop hrange (last + 1 - first) first _ hframes
    (by rw [succ_mul]; omega) hbelow
  have hempty : sliceOf payload start (min stop (first * size)) = [] :=
    drop_eq_nil_of_le (by rw [length_take]; omega)
  have hend : min stop ((first + (last + 1 - first)) * size) = stop := by
    rw [show first + (last + 1 - first) = last + 1 by omega, succ_mul]
    omega
  rwa [hempty, hend] at hloop

variable {start len : Int}

/-- A range that starts inside the payload is read back, cut off at its end. -/
theorem readRangeFrames (h : r.HasRecord c offset storedLen logicalLen payload) (hlen : 0 < len)
    (hstart : 0 ≤ start) (hin : start < payload.length) :
    r.readRangeFrames c offset storedLen logicalLen start len =
      .ok (sliceOf payload start.toNat (start.toNat + len.toNat)) := by
  have hcut : sliceOf payload start.toNat (start.toNat + len.toNat) =
      sliceOf payload start.toNat (min (start.toNat + len.toNat) payload.length) := by
    unfold sliceOf
    rw [take_eq_take_min]
  have hstop : min (start.toNat + len.toNat) payload.length ≤ payload.length := min_le_right _ _
  obtain ⟨layout, hlayout, hsize, hlast, hloop⟩ :=
    h.readRangeLoop (by omega : start.toNat < min (start.toNat + len.toNat) payload.length) hstop
  unfold Reader.readRangeFrames
  rw [if_neg (by rw [h.logicalLen_eq]; omega), hcut]
  simp only [bind, Except.bind, hlayout, hsize, h.logicalLen_eq]
  rw [if_neg (not_le.mpr hlast)]
  simp only [hloop]
  rw [if_neg (by rw [length_sliceOf payload _ hstop]; simp)]

theorem readRangeFrames_outside (hlogical : logicalLen.toNat = payload.length)
    (hout : ¬ (0 ≤ start ∧ start < payload.length)) :
    r.readRangeFrames c offset storedLen logicalLen start len = .error .invalidRange := by
  unfold Reader.readRangeFrames
  rw [if_pos (by rw [hlogical]; omega)]

end Reader.HasRecord

section Record

variable {nonce : Nat → List UInt8} {payload : List UInt8} {entries : List FrameIndexEntry}

variable {codec : CompressionCodec}

theorem storeFrame_length {nonce frame : List UInt8}
    (h : storeFrame c compressed none nonce frame = .ok (stored, codec)) :
    stored.length ≤ frame.length := by
  unfold storeFrame at h
  generalize hpacked : (if compressed = true then compressFrame c frame else none) = packed at h
  cases packed with
  | none =>
    cases h
    exact le_refl _
  | some plain =>
    cases h
    exact (packed_some hpacked).2

/-- Without a key the stored frames are no longer than the payload. -/
theorem buildFrames_length {frames : List (List UInt8)} :
    ∀ (i : Nat) (offset : UInt32) (stored : List UInt8) (entries : List FrameIndexEntry),
      buildFrames c compressed none nonce frames i offset = .ok (stored, entries) →
      stored.length ≤ frames.flatten.length := by
  induction frames with
  | nil =>
    intro i offset stored entries h
    cases h
    exact zero_le _
  | cons frame frames ih =>
    intro i offset stored entries h
    rw [buildFrames] at h
    split at h
    · simp at h
    rename_i first codec hstore
    split at h
    · simp at h
    rename_i rest entries' hrest
    cases h
    have hfirst := storeFrame_length hstore
    have htail := ih _ _ _ _ hrest
    rw [length_append, flatten_cons, length_append]
    omega

theorem length_lt_of_frameCount (hcount : frameCount defaultFrameSize payload < 2 ^ 16) :
    payload.length < 2 ^ 32 := by
  have hcover := length_le_frameCount (by decide : 0 < defaultFrameSize) payload
  unfold defaultFrameSize at hcount hcover
  omega

/-- Without a key the stored bytes of a record fit their length field. -/
theorem stored_length_lt (hbuild : buildFramedRecord c payload compressed key nonce =
      .ok (stored, entries)) (hcount : frameCount defaultFrameSize payload < 2 ^ 16)
    (hfits : key ≠ none → stored.length < 2 ^ 32) : stored.length < 2 ^ 32 := by
  by_cases hkey : key = none
  · rw [hkey] at hbuild
    have hle := buildFrames_length _ _ _ _ hbuild
    rw [flatten_splitFrames_frameCount] at hle
    have hlt := length_lt_of_frameCount hcount
    omega
  · exact hfits hkey

/-- The record that is built for a payload, written anywhere in a file, is a record of it. -/
theorem hasRecord_of_build (hc : c.Lossless)
    (hbuild : buildFramedRecord c payload compressed key nonce = .ok (stored, entries))
    (hcount : frameCount defaultFrameSize payload < 2 ^ 16) (hstored : stored.length < 2 ^ 32)
    {extentID : ExtentID} {generation : Generation} {keyID : UInt64}
    (hkey : r.resolveKey keyID = .ok key) (hpre : segmentHeaderSize ≤ pre.length)
    (hbytes : r.bytes = pre ++ (encodeRecordFramed
      (putHeader extentID generation payload stored entries codec keyID)
      (FrameIndex.encode entries) stored ++ post)) :
    r.HasRecord c pre.length (UInt32.ofNat stored.length)
      (UInt32.ofNat payload.length) payload := by
  obtain ⟨hentries, -, htotal⟩ := buildFrames_entries hbuild (by simpa using hstored)
  rw [length_splitFrames] at hentries
  let h := putHeader extentID generation payload stored entries codec keyID
  have hframeCount : h.frameCount.toNat = entries.length := by
    show (UInt16.ofNat entries.length).toNat = entries.length
    rw [UInt16.toNat_ofNat']
    omega
  have hstoredLen : h.storedLen.toNat = stored.length := by
    show (UInt32.ofNat stored.length).toNat = stored.length
    rw [UInt32.toNat_ofNat']
    omega
  have hlayout := readRecordLayout_eq (h := h) hpre hbytes rfl rfl hframeCount rfl htotal hstoredLen
    hkey
  have hlt := length_lt_of_frameCount hcount
  refine ⟨?_, _, hlayout, rfl, ?_⟩
  · rw [UInt32.toNat_ofNat']
    omega
  have hidx : (FrameIndex.encode entries).length = entries.length * frameIndexEntrySize :=
    FrameIndex.length_encode entries
  let front := pre ++ h.encode ++ FrameIndex.encode entries
  have hfront : pre.length + recordHeaderSize + entries.length * frameIndexEntrySize =
      front.length := by
    simp only [front, length_append, length_encode, hidx]
  have hsplit : r.bytes = front ++ ([] ++ (stored ++
      (RecordTrailer.encode (recordFraming h.storedLen h.frameCount.toNat) ++ post))) := by
    rw [hbytes, encodeRecordFramed]
    simp only [front, h, append_assoc, nil_append]
  exact buildFrames_readsAs hc hfront rfl 0 0 stored entries [] hbuild (by simpa using hstored)
    rfl (by simp) hsplit

/--
**Framed records read back.**  A record that was built for a payload and written
at any offset of any file is read back whole, and every range that starts inside it
is read back up to its end.  Other ranges are refused.
-/
theorem readFrames_written (hc : c.Lossless)
    (hbuild : buildFramedRecord c payload compressed key nonce = .ok (stored, entries))
    (hcount : frameCount defaultFrameSize payload < 2 ^ 16)
    (hfits : key ≠ none → stored.length < 2 ^ 32) (extentID : ExtentID) (generation : Generation)
    (codec : CompressionCodec) (keyID : UInt64) (r : Reader) (hkey : r.resolveKey keyID = .ok key)
    (file : List UInt8) (offset : Nat) (hoffset : segmentHeaderSize ≤ offset)
    (hwritten : r.bytes = writeAt file offset (encodeRecordFramed
      (putHeader extentID generation payload stored entries codec keyID)
      (FrameIndex.encode entries) stored)) :
    r.readPayloadFrames c offset (UInt32.ofNat stored.length) (UInt32.ofNat payload.length) =
        .ok payload ∧ ∀ start len : Int, 0 < len →
        r.readRangeFrames c offset (UInt32.ofNat stored.length) (UInt32.ofNat payload.length)
            start len = if 0 ≤ start ∧ start < payload.length then
            .ok (sliceOf payload start.toNat (start.toNat + len.toNat))
          else .error .invalidRange := by
  have hstored := stored_length_lt hbuild hcount hfits
  have hpre : (file.take offset ++ List.replicate (offset - file.length) 0).length = offset := by
    simp only [length_append, length_take, length_replicate]
    omega
  unfold writeAt at hwritten
  rw [append_assoc _ (encodeRecordFramed _ _ _)] at hwritten
  have hrecord := hasRecord_of_build hc hbuild hcount hstored hkey (by omega) hwritten
  rw [hpre] at hrecord
  refine ⟨hrecord.readPayloadFrames, ?_⟩
  intro start len hlen
  split_ifs with hin
  · exact hrecord.readRangeFrames hlen hin.1 hin.2
  · exact Reader.HasRecord.readRangeFrames_outside hrecord.logicalLen_eq hin

end Record

namespace SampleReader

/-- A cipher whose sealed frames are one byte longer. -/
def cipher : FrameCodec :=
  { SampleMachine.codec with
    encryptFrame := fun _ _ frame => .ok (9 :: frame)
    decryptFrame := fun _ frame => .ok frame.tail
    activeKey := some (.ok (1, [])) }

/-- The index entry of a sealed frame that holds one byte. -/
def entry : FrameIndexEntry := ⟨0, 2, .none, crc32c [9, 7]⟩

/-- A file with a sealed record of one byte behind the segment header. -/
def reader : Reader where
  bytes := writeAt [] 22 (encodeRecordFramed (putHeader 1 1 [7] [9, 7] [entry] .none 1)
    (FrameIndex.encode [entry]) [9, 7])
  sizeBytes := 0
  enc := some fun _ => .ok []

end SampleReader

open SampleReader in
theorem readFrames_written_sample : reader.readPayloadFrames cipher 22 2 1 = .ok [7] ∧
      ∀ start len : Int, 0 < len → reader.readRangeFrames cipher 22 2 1 start len =
        if 0 ≤ start ∧ start < ([7] : List UInt8).length then
          .ok (sliceOf [7] start.toNat (start.toNat + len.toNat)) else .error .invalidRange := by
  have hlossless : cipher.Lossless := by
    refine ⟨fun _ => rfl, fun _ _ frame sealed h => ?_⟩
    cases h
    rfl
  have hbuild : buildFramedRecord cipher [7] false (some []) (fun _ => []) =
      .ok ([9, 7], [entry]) := by
    unfold buildFramedRecord
    rfl
  exact readFrames_written hlossless hbuild (by decide) (fun _ => by decide) 1 1 .none 1 reader rfl
    [] 22 (by decide) rfl

/-- A read from the end of a payload on is an error, not an empty result. -/
theorem readRangeFrames_at_end : SampleReader.reader.readRangeFrames SampleReader.cipher 22 2 1 1 1 ≠
    .ok (sliceOf [7] 1 2) := by
  intro h
  have hrefused : SampleReader.reader.readRangeFrames SampleReader.cipher 22 2 1 1 1 =
      .error .invalidRange := rfl
  rw [hrefused] at h
  simp at h

end Nufs.Storage
