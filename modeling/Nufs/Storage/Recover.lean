/-
Recovery of an active segment: `RecoverFromSegmentLog` and its entry parser.

The parser walks the file entry by entry.  Records go to a pending list; a valid
BatchCommit hands the pending records to the caller's `apply` and moves the last
valid boundary; an INDEX_SAFE marker moves the boundary too.  The first entry that
is not valid ends the walk, and what lies behind the boundary is cut off.

The caller's `apply` is a parameter acting on a sink of any type, so that what it
is called with, and in which order, can be read off the sink.  The clock is a
parameter too: `expired n` says whether the deadline has passed when it is looked
at for the `n`-th time.
-/
import Nufs.Storage.Record
import Nufs.Storage.Journal
import Nufs.Storage.SegmentFile

namespace Nufs.Storage

open Layout ByteFile

/-! ### Options, state and result -/

/-- `RecoverOptions`. -/
structure RecoverOptions where
  streamID : UInt8
  safeOffset : Int
  safeSeq : UInt64
  /-- The safe offset must directly follow the INDEX_SAFE marker of `safeSeq`. -/
  requireSafeMarker : Bool
  maxRecords : Nat
  maxReplayBytes : Int
  maxTrailingBytes : Int
  /-- Has the deadline passed at the `n`-th look at the clock? -/
  expired : Nat → Bool

/-- `recoveryRecordLimit`. -/
def recoveryRecordLimit (opts : RecoverOptions) : Nat :=
  if opts.maxRecords = 0 ∨ maxRecoveryRecords < opts.maxRecords then maxRecoveryRecords
  else opts.maxRecords

/-- `recoveryByteLimits`: the limit on replayed bytes and the one on trailing bytes. -/
def recoveryByteLimits (opts : RecoverOptions) : Nat × Nat :=
  (if opts.maxReplayBytes ≤ 0 ∨ maxRecoveryReplayBytes < opts.maxReplayBytes then
      maxRecoveryReplayBytes
    else opts.maxReplayBytes.toNat,
   if opts.maxTrailingBytes ≤ 0 ∨ maxRecoveryTrailingBytes < opts.maxTrailingBytes then
      maxRecoveryTrailingBytes
    else opts.maxTrailingBytes.toNat)

/-- `recoveryState`, with the caller's sink and the number of looks at the clock so far. -/
structure RecoveryState (σ : Type) where
  sink : σ
  pending : List CommitDescriptor
  pendingBytes : Nat
  lastValid : Nat
  lastCommittedSeq : UInt64
  safeSeq : UInt64
  commits : Nat
  applied : Nat
  records : Nat
  replayBytes : Nat
  clockReads : Nat
  deriving Repr

/-- `RecoverResult`, without the duration. -/
structure RecoverResult where
  commits : Nat
  applied : Nat
  lastSeq : UInt64
  safeOffset : Nat
  lastCommittedOffset : Nat
  trailingBytes : Nat
  safeSeq : UInt64
  replayBytes : Nat
  dataReady : Bool
  deriving DecidableEq, Repr

/-- Everything a call of recovery leaves: what it returns, the file, and the sink. -/
structure RecoverOutcome (σ : Type) where
  result : Option RecoverResult
  err : Option Err
  file : List UInt8
  sink : σ
  deriving Repr

/-- What the parser says of a valid entry: the next offset, and which kind of boundary it is. -/
structure ParsedEntry where
  next : Nat
  commit : Bool
  indexSafe : Bool
  deriving DecidableEq, Repr

/-- `errors.Is(err, ErrRecoveryBudgetExceeded)`, looking through what wraps it. -/
def Err.isBudgetExceeded : Err → Bool
  | .recoveryBudgetExceeded => true
  | .recoveryApply err _ _ => err.isBudgetExceeded
  | .wrapped _ err => err.isBudgetExceeded
  | _ => false

/-! ### Records -/

/-- The walk over a record's frame index: the sum of the stored lengths. -/
def checkFrameIndex (index : List UInt8) (storedLen : Nat) :
    (count base stored expectedOffset : Nat) → Except Err Nat
  | 0, _, stored, _ => .ok stored
  | n + 1, base, stored, expectedOffset =>
    let entryOffset := (u32At index base).toNat
    let entryLen := (u32At index (base + 4)).toNat
    if entryOffset ≠ expectedOffset ∨ storedLen - stored < entryLen then
      .error (.message "storage: invalid frame index bounds")
    else
      checkFrameIndex index storedLen n (base + frameIndexEntrySize) (stored + entryLen)
        (expectedOffset + entryLen)

/-- `validateV2RecordHeader`: is this a genuine header of the old format? -/
def validateV2RecordHeader (f : List UInt8) (off : Nat) : Except Err Unit :=
  match readFullAt f 50 off with
  | none => .error .unexpectedEOF
  | some buf =>
    if u32At buf 0 ≠ recordMagic ∨ u8At buf 4 ≠ 2 then
      .error (.message "storage: invalid V2 record header")
    else if Crc.crc32 Crc.ieee (buf.take 42) ≠ u32At buf 42 then
      .error (.message "storage: invalid V2 record header crc")
    else .ok ()

/-- The on-disk size of the record a header announces. -/
def RecordHeader.framing (h : RecordHeader) : Nat :=
  recordHeaderSize + h.frameCount.toNat * frameIndexEntrySize + h.storedLen.toNat +
    recordTrailerSize

/-- The first half of `parseRecord`: the header, and whether the record can fit the file. -/
def checkRecordHeader (f : List UInt8) (off : Nat) : Except Err RecordHeader :=
  match readFullAt f 5 off with
  | none => .error .unexpectedEOF
  | some start =>
    if u32At start 0 ≠ recordMagic then
      .error (.message ("storage: bad record magic 0x" ++ hex (u32At start 0).toNat))
    else if u8At start 4 = 2 then
      match validateV2RecordHeader f off with
      | .error e => .error e
      | .ok _ => .error (.unsupportedRecoveryFormat ": record version 2")
    else
      match readFullAt f recordHeaderSize off with
      | none => .error .unexpectedEOF
      | some headerBuf =>
        match RecordHeader.decode headerBuf with
        | .error e => .error e
        | .ok header =>
          if 2 ^ 20 < header.frameCount.toNat * frameIndexEntrySize then
            .error (.message "storage: frame index too large")
          else if header.frameCount = 0 ∧ header.storedLen ≠ 0 then
            .error (.message "storage: zero-frame record has stored bytes")
          else if header.op = .delete ∧
              (header.storedLen ≠ 0 ∨ header.logicalLen ≠ 0 ∨ header.frameCount ≠ 0) then
            .error (.message "storage: delete record carries payload")
          else if f.length < off + header.framing then .error .unexpectedEOF
          else .ok header

/-- The second half of `parseRecord`: frame index and trailer.  No payload byte is read. -/
def checkRecordBody (f : List UInt8) (off : Nat) (header : RecordHeader) : Except Err Unit :=
  let indexBytes := header.frameCount.toNat * frameIndexEntrySize
  let storedLen := header.storedLen.toNat
  match readFullAt f indexBytes (off + recordHeaderSize) with
  | none => .error .unexpectedEOF
  | some index =>
    if crc32c index ≠ header.frameIndexCRC then
      .error (.message "storage: frame index crc mismatch")
    else
      match checkFrameIndex index storedLen header.frameCount.toNat 0 0 0 with
      | .error e => .error e
      | .ok stored =>
        if stored ≠ storedLen then
          .error (.message "storage: frame index stored length mismatch")
        else
          match readFullAt f recordTrailerSize
              (off + recordHeaderSize + indexBytes + storedLen) with
          | none => .error .unexpectedEOF
          | some trailerBuf =>
            match RecordTrailer.decode trailerBuf with
            | .error e => .error e
            | .ok framingLen =>
              if framingLen ≠ UInt32.ofNat header.framing then
                .error (.message "storage: record trailer framing mismatch")
              else .ok ()

/-- The checks `parseRecord` makes of a record's bytes, with the header they accept. -/
def checkRecord (f : List UInt8) (off : Nat) : Except Err RecordHeader :=
  match checkRecordHeader f off with
  | .error e => .error e
  | .ok header =>
    match checkRecordBody f off header with
    | .error e => .error e
    | .ok _ => .ok header

/-- The descriptor recovery makes of a record found at an offset. -/
def RecordHeader.descriptor (h : RecordHeader) (segID : SegmentID) (off : Nat) :
    CommitDescriptor where
  extentID := h.extentID
  generation := h.generation
  segmentID := segID
  offset := off
  storedLen := h.storedLen
  logicalLen := h.logicalLen
  checksum := h.payloadChecksum
  op := h.op

section Parser

variable {σ : Type} (segID : SegmentID) (opts : RecoverOptions)
  (apply : Option (CommitDescriptor → σ → Except Err σ)) (f : List UInt8)

/-- `recoveryState.parseRecord`. -/
def parseRecord (off : Nat) (s : RecoveryState σ) : Except Err ParsedEntry × RecoveryState σ :=
  match checkRecord f off with
  | .error e => (.error e, s)
  | .ok header =>
    if s.records = recoveryRecordLimit opts then (.error .recoveryBudgetExceeded, s)
    else
      (.ok ⟨off + header.framing, false, false⟩,
        { s with
          records := s.records + 1
          pendingBytes := s.pendingBytes + header.framing
          pending := s.pending ++ [header.descriptor segID off] })

/-! ### Commits -/

/-- `recoveryState.addReplayBytes`: the state with `n` more bytes, if the limit allows. -/
def addReplayBytes (n : Nat) (s : RecoveryState σ) : Option (RecoveryState σ) :=
  if s.replayBytes + n ≤ (recoveryByteLimits opts).1 then
    some { s with replayBytes := s.replayBytes + n }
  else none

/-- The replay loop of `parseCommit`. -/
def applyPending (apply : CommitDescriptor → σ → Except Err σ) (committedEnd : Nat)
    (seq : UInt64) : List CommitDescriptor → RecoveryState σ → Except Err Unit × RecoveryState σ
  | [], s => (.ok (), s)
  | d :: ds, s =>
    if opts.expired s.clockReads then (.error .recoveryBudgetExceeded, s)
    else
      match apply d s.sink with
      | .error e => (.error (.recoveryApply e committedEnd seq), s)
      | .ok sink =>
        applyPending apply committedEnd seq ds
          { s with sink, applied := s.applied + 1, clockReads := s.clockReads + 1 }

/-- The structural checks `parseCommit` makes before it looks at the clock. -/
def checkCommit (off : Nat) (s : RecoveryState σ) : Except Err BatchCommit := do
  let some buf := readFullAt f batchCommitSize off | .error .unexpectedEOF
  let commit ← BatchCommit.decode buf
  if commit.version = 2 then
    .error (.unsupportedRecoveryFormat s!": batchcommit version {commit.version.toNat}")
  else if commit.version ≠ formatVersion then
    .error (.message s!"storage: unsupported batchcommit version {commit.version.toNat}")
  else if commit.streamID ≠ opts.streamID ∨ commit.seq ≤ s.lastCommittedSeq ∨
      commit.recordCount ≠ UInt32.ofNat s.pending.length then
    .error (.message "storage: invalid batchcommit fields")
  else if s.pending.head?.map (fun d => UInt64.ofNat d.offset) ≠ some commit.firstOffset ∨
      commit.lastOffset ≠ UInt64.ofNat off then
    .error (.message "storage: invalid batchcommit offsets")
  else .ok commit

/-- The end of `parseCommit`: the batch is closed. -/
def closeBatch (seq : UInt64) (s : RecoveryState σ) : RecoveryState σ :=
  { s with pending := [], pendingBytes := 0, lastCommittedSeq := seq, commits := s.commits + 1 }

/-- `recoveryState.parseCommit`. -/
def parseCommit (off : Nat) (s : RecoveryState σ) : Except Err ParsedEntry × RecoveryState σ :=
  match checkCommit opts f off s with
  | .error e => (.error e, s)
  | .ok commit =>
    if (List.range s.pending.length).any fun i => opts.expired (s.clockReads + i) then
      (.error .recoveryBudgetExceeded, s)
    else
      let s := { s with clockReads := s.clockReads + s.pending.length }
      let done : ParsedEntry := ⟨off + batchCommitSize, true, false⟩
      if commit.descriptorsCRC ≠ pendingDescriptorsCRC s.pending then
        (.error (.message "storage: batch descriptor crc mismatch"), s)
      else if commit.seq ≤ opts.safeSeq then
        (.ok done, closeBatch commit.seq s)
      else
        match addReplayBytes opts (s.pendingBytes + batchCommitSize) s with
        | none => (.error .recoveryBudgetExceeded, s)
        | some s =>
          match apply with
          | none => (.ok done, closeBatch commit.seq s)
          | some apply =>
            match applyPending opts apply (off + batchCommitSize) commit.seq s.pending s with
            | (.error e, s) => (.error e, s)
            | (.ok _, s) => (.ok done, closeBatch commit.seq s)

/-! ### Markers and the dispatch -/

/-- The journal record at an offset, if there is one and it is an INDEX_SAFE marker. -/
def indexSafeAt (off : Nat) : Option CommitRecord :=
  match readFullAt f commitRecordSize off with
  | none => none
  | some buf =>
    match CommitRecord.decode buf with
    | .error _ => none
    | .ok record => if record.op = .indexSafe then some record else none

/-- `recoveryState.parseEntry`. -/
def parseEntry (off : Nat) (s : RecoveryState σ) : Except Err ParsedEntry × RecoveryState σ :=
  match readFullAt f 4 off with
  | none => (.error .unexpectedEOF, s)
  | some magicBuf =>
    let magic := u32At magicBuf 0
    if magic = batchCommitMagic then parseCommit opts apply f off s
    else
      -- An INDEX_SAFE marker has no magic of its own: it is tried only when the
      -- bytes do not start like a record.
      match (if magic ≠ recordMagic then indexSafeAt f off else none) with
      | none => parseRecord segID opts f off s
      | some record =>
        if s.pending ≠ [] then
          (.error (.message "storage: index safe follows uncommitted records"), s)
        else
          let s := { s with safeSeq := max record.seq s.safeSeq }
          match addReplayBytes opts commitRecordSize s with
          | none => (.error .recoveryBudgetExceeded, s)
          | some s => (.ok ⟨off + commitRecordSize, false, true⟩, s)

/-! ### The walk -/

/-- How the walk over the entries ends. -/
inductive WalkEnd
  /-- The end of the file, or an entry that is not valid. -/
  | stop
  /-- A failure of recovery, with or without a partial result. -/
  | fail (withResult : Bool) (err : Err)
  deriving DecidableEq, Repr

/-- The loop of `RecoverFromSegmentLog`.  Every entry is longer than a byte, so the file's
length is fuel enough. -/
def walk : (fuel off : Nat) → RecoveryState σ → WalkEnd × RecoveryState σ
  | 0, _, s => (.stop, s)
  | fuel + 1, off, s =>
    if off < f.length then
      if opts.expired s.clockReads then (.fail true .recoveryBudgetExceeded, s)
      else
        match parseEntry segID opts apply f off { s with clockReads := s.clockReads + 1 } with
        | (.ok entry, s) =>
          walk fuel entry.next
            (if entry.commit || entry.indexSafe then { s with lastValid := entry.next } else s)
        | (.error e, s) =>
          if e.isBudgetExceeded then (.fail true e, s)
          else
            match e with
            | .recoveryApply err committedEnd seq =>
              (.fail true err,
                { s with
                  lastValid := committedEnd, lastCommittedSeq := seq
                  commits := s.commits + 1 })
            | .unsupportedRecoveryFormat m => (.fail false (.unsupportedRecoveryFormat m), s)
            | _ => (.stop, s)
    else (.stop, s)

end Parser

/-! ### Recovery -/

/-- `validateSafeRecoveryStart`: the sequence of the boundary before an offset, and whether it
is an INDEX_SAFE marker. -/
def validateSafeRecoveryStart (f : List UInt8) (off : Nat) (streamID : UInt8) :
    Except Err (UInt64 × Bool) :=
  let markerCase : Except Err (UInt64 × Bool) :=
    if segmentHeaderSize + commitRecordSize ≤ off then
      match indexSafeAt f (off - commitRecordSize) with
      | some marker =>
        if marker.seq ≠ 0 then .ok (marker.seq, true)
        else .error (.message "storage: safe offset is not after a committed boundary")
      | none => .error (.message "storage: safe offset is not after a committed boundary")
    else .error (.message "storage: safe offset is not after a committed boundary")
  if segmentHeaderSize + batchCommitSize ≤ off then
    let commitOff := off - batchCommitSize
    match (readFullAt f batchCommitSize commitOff).map BatchCommit.decode with
    | some (.ok commit) =>
      if commit.version ≠ formatVersion then
        .error (.message
          s!"storage: unsupported checkpoint batchcommit version {commit.version.toNat}")
      else if commit.streamID ≠ streamID ∨ commit.seq = 0 ∨ commit.recordCount = 0 ∨
          commit.firstOffset.toNat < segmentHeaderSize ∨ commitOff ≤ commit.firstOffset.toNat ∨
          commit.lastOffset.toNat ≠ commitOff then
        .error (.message "storage: invalid checkpoint batchcommit")
      else .ok (commit.seq, false)
    | _ => markerCase
  else markerCase

section Recover

variable {σ : Type} (segID : SegmentID) (opts : RecoverOptions)
  (apply : Option (CommitDescriptor → σ → Except Err σ))

/-- `recoveryState.result`. -/
def RecoveryState.result (s : RecoveryState σ) (size safeOffset : Nat) (dataReady : Bool) :
    RecoverResult where
  commits := s.commits
  applied := s.applied
  lastSeq := s.lastCommittedSeq
  safeOffset := safeOffset
  lastCommittedOffset := s.lastValid
  trailingBytes := size - s.lastValid
  safeSeq := s.safeSeq
  replayBytes := s.replayBytes
  dataReady := dataReady

/-- The offset at which recovery starts and the sequence it trusts there. -/
def recoverStart (f : List UInt8) : Except Err (Nat × UInt64) := do
  if f.length < segmentHeaderSize then
    .error (.message "storage: segment shorter than header")
  else
    let _ ← SegmentHeader.decode (f.take segmentHeaderSize)
    if opts.safeOffset < 0 then
      .error (.message s!"storage: safe offset {opts.safeOffset} outside segment")
    else
      let start := max opts.safeOffset.toNat segmentHeaderSize
      if f.length < start then
        .error (.message
          s!"storage: safe offset {opts.safeOffset} outside segment size {f.length}")
      else if start = segmentHeaderSize then .ok (start, 0)
      else
        match validateSafeRecoveryStart f start opts.streamID with
        | .error e =>
          .error (.wrapped
            s!"storage: safe offset {opts.safeOffset} is not an encoded boundary: " e)
        | .ok (seq, isIndexSafe) =>
          if opts.requireSafeMarker ∧ (isIndexSafe = false ∨ seq ≠ opts.safeSeq) then
            .error (.message
              s!"storage: safe offset {opts.safeOffset} does not match index-safe checkpoint")
          else .ok (start, seq)

/-- The state in which the walk starts. -/
def RecoveryState.init (sink : σ) (start : Nat) (checkpointSeq safeSeq : UInt64) :
    RecoveryState σ where
  sink
  pending := []
  pendingBytes := 0
  lastValid := start
  lastCommittedSeq := checkpointSeq
  safeSeq
  commits := 0
  applied := 0
  records := 0
  replayBytes := 0
  clockReads := 0

/-- `RecoverFromSegmentLog` on the bytes of a segment file. -/
def recoverFromSegmentLog (sink : σ) (f : List UInt8) : RecoverOutcome σ :=
  match recoverStart opts f with
  | .error e => ⟨none, some e, f, sink⟩
  | .ok (start, checkpointSeq) =>
    match walk segID opts apply f f.length start
        (.init sink start checkpointSeq opts.safeSeq) with
    | (.fail withResult e, s) =>
      ⟨if withResult then some (s.result f.length start false) else none, some e, f, s.sink⟩
    | (.stop, s) =>
      let trailing := f.length - s.lastValid
      if (recoveryByteLimits opts).2 < trailing then
        ⟨some (s.result f.length start false), some .recoveryBudgetExceeded, f, s.sink⟩
      else
        -- Nothing below the start is ever cut: the walk only moves the boundary forward.
        let f' := if 0 < trailing then f.take s.lastValid else f
        if opts.expired s.clockReads then
          ⟨some (s.result f.length start false), some .recoveryBudgetExceeded, f', s.sink⟩
        else
          ⟨some (s.result f.length start true), none, f', s.sink⟩

end Recover

end Nufs.Storage
