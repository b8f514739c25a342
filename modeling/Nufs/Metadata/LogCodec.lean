/-
The bytes of a raft log entry.

An entry starts with the byte of its operation.  Byte strings are written with their
length in four bytes in front, and lists with their count.  A conditional batch is
brought into its canonical form before it is written and again after it is read.
-/
import Nufs.Metadata.Conditional
import Nufs.Lib.Wire

namespace Nufs.Metadata.Pebble

open Layout Wire

/-- `RaftLogOp`; `unknown` is any byte that has no name. -/
inductive RaftLogOp
  | set | delete | batch | cas | conditionalBatch
  | unknown (b : UInt8) (h : b = 0 ∨ 6 ≤ b)
  deriving DecidableEq, Repr

namespace RaftLogOp

def toByte : RaftLogOp → UInt8
  | set => 1
  | delete => 2
  | batch => 3
  | cas => 4
  | conditionalBatch => 5
  | unknown b _ => b

def ofByte (b : UInt8) : RaftLogOp :=
  if h : b = 0 ∨ 6 ≤ b then unknown b h
  else if b = 1 then set
  else if b = 2 then delete
  else if b = 3 then batch
  else if b = 4 then cas
  else conditionalBatch

theorem ofByte_toByte (op : RaftLogOp) : ofByte op.toByte = op := by
  cases op with
  | unknown b h => exact dif_pos h
  | _ => rfl

end RaftLogOp

/-- `RaftLogEntry`. -/
structure RaftLogEntry where
  op : RaftLogOp
  key : List UInt8
  value : List UInt8
  batch : List BatchOp
  conditional : Option ConditionalBatch
  deriving DecidableEq, Repr

/-- Why an entry is not encoded, or not decoded. -/
inductive LogErr
  /-- empty raft log entry -/
  | empty
  /-- raft log entry exceeds -/
  | tooLong
  /-- unknown op type -/
  | unknownOp (b : UInt8)
  /-- `io.EOF`. -/
  | eof
  /-- `io.ErrUnexpectedEOF`. -/
  | unexpectedEOF
  /-- batch operation count exceeds encoded payload -/
  | batchCount (count : Nat)
  /-- invalid batch operation kind -/
  | batchKind (kind : UInt8)
  /-- raft log entry has trailing bytes -/
  | trailing (count : Nat)
  /-- unsupported conditional batch version -/
  | version (version : UInt8)
  /-- The count of a list exceeds its limit. -/
  | count (field : String) (count limit : Nat)
  /-- encoded byte string length exceeds -/
  | byteString (length limit : Nat)
  /-- invalid conditional precondition kind -/
  | preconditionKind (kind : UInt8)
  /-- invalid conditional mutation kind -/
  | mutationKind (kind : UInt8)
  | conditional (err : BatchErr)
  deriving DecidableEq, Repr

/-! ### Writing -/

/-- `writeUint32`, which cuts the number to its four bytes. -/
def writeUint32 (n : Nat) : List UInt8 := be 4 n

/-- `writeBytes`. -/
def writeBytes (bs : List UInt8) : List UInt8 := writeUint32 bs.length ++ bs

/-- `writeBatchOp`, and the operations of a plain batch. -/
def writeBatchOp (op : BatchOp) : List UInt8 :=
  if op.delete then [1] ++ writeBytes op.key
  else [0] ++ (writeBytes op.key ++ writeBytes op.value)

/-- A precondition of a conditional batch. -/
def writePrecondition (p : ConditionalPrecondition) : List UInt8 :=
  if p.expectAbsent then [1] ++ writeBytes p.key
  else [0] ++ (writeBytes p.key ++ writeBytes p.expectedValue)

/-- A row of a replacement. -/
def writeSet (s : BatchOp) : List UInt8 := writeBytes s.key ++ writeBytes s.value

/-- A list with its count in front. -/
def writeList {α : Type} (write : α → List UInt8) (as : List α) : List UInt8 :=
  writeUint32 as.length ++ as.flatMap write

/-- A replacement of a conditional batch. -/
def writeReplacement (r : ConditionalPrefixReplacement) : List UInt8 :=
  writeBytes r.keyPrefix ++ writeList writeSet r.sets

/-- The expected term, in the version that carries one. -/
def writeTerm (c : ConditionalBatch) : List UInt8 :=
  if c.version = conditionalBatchTermFencedVersion then be 8 c.expectedRaftTerm.toNat else []

/-- A canonical conditional batch. -/
def writeConditional (c : ConditionalBatch) : List UInt8 :=
  [c.version] ++ (writeTerm c ++ (writeList writePrecondition c.preconditions ++
    (writeList writeBatchOp c.mutations ++ writeList writeReplacement c.prefixReplacements)))

/-- What `EncodeChecked` writes behind the byte of the operation. -/
def encodeBody (shapes : Shapes) (e : RaftLogEntry) : Except LogErr (List UInt8) :=
  match e.op with
  | .set | .cas => .ok (writeBytes e.key ++ writeBytes e.value)
  | .delete => .ok (writeBytes e.key)
  | .batch => .ok (writeList writeBatchOp e.batch)
  | .conditionalBatch =>
    match e.conditional with
    | none => .error (.conditional .required)
    | some c => do
        let canonical ← (canonicalConditionalBatch shapes c).mapError .conditional
        let body := writeConditional canonical
        if maxRaftLogEntryBytes < 1 + body.length then .error .tooLong else .ok body
  | .unknown b _ => .error (.unknownOp b)

/-- `EncodeChecked`, of an entry that is there. -/
def encodeChecked (shapes : Shapes) (e : RaftLogEntry) : Except LogErr (List UInt8) := do
  let body ← encodeBody shapes e
  return e.op.toByte :: body

/-! ### Reading -/

/-- `ReadByte`. -/
def readByte : Reader LogErr UInt8
  | [] => .error .eof
  | b :: rest => .ok (b, rest)

/-- A number of four bytes. -/
def readUint32 : Reader LogErr Nat := readWord .eof .unexpectedEOF 4

/-- `readBytes`. -/
def readBytes : Reader LogErr (List UInt8) := do
  let n ← readUint32
  readFull .eof .unexpectedEOF n

/-- `readBoundedBytes`. -/
def readBoundedBytes (limit : Nat) : Reader LogErr (List UInt8) := do
  let n ← readUint32
  if limit < n then .fail (.byteString n limit)
  else readFull .unexpectedEOF .unexpectedEOF n

/-- `readBoundedCount`. -/
def readBoundedCount (field : String) (limit : Nat) : Reader LogErr Nat := do
  let n ← readUint32
  if limit < n then .fail (.count field n limit) else return n

/-- The count of a plain batch: every operation takes five bytes or more. -/
def readBatchCount : Reader LogErr Nat := fun bs =>
  match readUint32 bs with
  | .error e => .error e
  | .ok (n, rest) => if rest.length / 5 < n then .error (.batchCount n) else .ok (n, rest)

/-- An operation: its kind, its key and, unless it deletes, its value. -/
def readOp (badKind : UInt8 → LogErr) (key value : Reader LogErr (List UInt8)) :
    Reader LogErr BatchOp := do
  let kind ← readByte
  if 1 < kind then .fail (badKind kind)
  else do
    let k ← key
    if kind = 1 then return ⟨true, k, []⟩
    else do
      let v ← value
      return ⟨false, k, v⟩

/-- An operation of a plain batch. -/
def readPlainOp : Reader LogErr BatchOp := readOp .batchKind readBytes readBytes

/-- `readBatchOp`. -/
def readBatchOp : Reader LogErr BatchOp :=
  readOp .mutationKind (readBoundedBytes maxConditionalKeyBytes)
    (readBoundedBytes maxConditionalValueBytes)

/-- A precondition. -/
def readPrecondition : Reader LogErr ConditionalPrecondition := do
  let op ← readOp .preconditionKind (readBoundedBytes maxConditionalKeyBytes)
    (readBoundedBytes maxConditionalValueBytes)
  return ⟨op.key, op.value, op.delete⟩

/-- A row of a replacement. -/
def readSet : Reader LogErr BatchOp := do
  let key ← readBoundedBytes maxConditionalKeyBytes
  let value ← readBoundedBytes maxConditionalValueBytes
  return ⟨false, key, value⟩

/-- A list with its count in front. -/
def readList {α : Type} (field : String) (limit : Nat) (read : Reader LogErr α) :
    Reader LogErr (List α) := do
  let n ← readBoundedCount field limit
  read.times n

/-- A replacement. -/
def readReplacement : Reader LogErr ConditionalPrefixReplacement := do
  let keyPrefix ← readBoundedBytes maxConditionalKeyBytes
  let sets ← readList "conditional replacement sets" maxConditionalReplacementSets readSet
  return ⟨keyPrefix, sets⟩

/-- The expected term, in the version that carries one. -/
def readTerm (version : UInt8) : Reader LogErr UInt64 :=
  if version = conditionalBatchTermFencedVersion then do
    let n ← readWord .eof .unexpectedEOF 8
    return UInt64.ofNat n
  else pure 0

/-- The limits on preconditions and mutations that are read. -/
def readLimits (version : UInt8) : Nat × Nat :=
  if version = chunkTombstoneFencedBatchVersion then
    (2 + 2 * maxChunkAllocationBatch, 2 + maxChunkAllocationBatch)
  else (maxConditionalPreconditions, maxConditionalMutations)

/-- The canonical form of what was read. -/
def canonicalRead (shapes : Shapes) (c : ConditionalBatch) : Reader LogErr ConditionalBatch :=
  match canonicalConditionalBatch shapes c with
  | .ok d => pure d
  | .error e => .fail (.conditional e)

/-- `decodeConditionalBatch`. -/
def decodeConditionalBatch (shapes : Shapes) : Reader LogErr ConditionalBatch := do
  let version ← readByte
  if ¬ supportedVersion version then .fail (.version version)
  else do
    let term ← readTerm version
    let preconditions ←
      readList "conditional preconditions" (readLimits version).1 readPrecondition
    let mutations ← readList "conditional mutations" (readLimits version).2 readBatchOp
    let replacements ←
      readList "conditional prefix replacements" maxConditionalPrefixReplacements readReplacement
    canonicalRead shapes ⟨version, term, preconditions, mutations, replacements⟩

/-- What follows the byte of the operation. -/
def readBody (shapes : Shapes) : RaftLogOp → Reader LogErr RaftLogEntry
  | .set => do
      let key ← readBytes
      let value ← readBytes
      return ⟨.set, key, value, [], none⟩
  | .delete => do
      let key ← readBytes
      return ⟨.delete, key, [], [], none⟩
  | .cas => do
      let key ← readBytes
      let value ← readBytes
      return ⟨.cas, key, value, [], none⟩
  | .batch => do
      let n ← readBatchCount
      let ops ← readPlainOp.times n
      return ⟨.batch, [], [], ops, none⟩
  | .conditionalBatch => do
      let c ← decodeConditionalBatch shapes
      return ⟨.conditionalBatch, [], [], [], some c⟩
  | .unknown b _ => .fail (.unknownOp b)

/-- Nothing is left behind an entry. -/
def atEnd : Except LogErr (RaftLogEntry × List UInt8) → Except LogErr RaftLogEntry
  | .error e => .error e
  | .ok (entry, []) => .ok entry
  | .ok (_, more) => .error (.trailing more.length)

/-- `DecodeRaftLogEntry`. -/
def decodeRaftLogEntry (shapes : Shapes) : List UInt8 → Except LogErr RaftLogEntry
  | [] => .error .empty
  | b :: rest =>
    if RaftLogOp.ofByte b = .conditionalBatch ∧ maxRaftLogEntryBytes < rest.length + 1 then
      .error .tooLong
    else atEnd (readBody shapes (.ofByte b) rest)

end Nufs.Metadata.Pebble
