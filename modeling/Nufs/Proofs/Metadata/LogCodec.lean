/-
Raft log entries are read as they were written.

Each part of an entry is found in front of anything, and no part looks behind what it
takes.  The first gives the round trip, both together that an encoding that is cut short
or goes on is rejected.  A canonical batch is its own canonical form, so reading one
gives it back.

Lengths are written in four bytes.  Conditional batches are far below that; the other
operations do not check, and what is longer is not read back.
-/
import Nufs.Metadata.LogCodec
import Nufs.Proofs.Metadata.Conditional

namespace Nufs.Metadata.Pebble

open Layout Wire Wire.Reader ByteOrder KeySort ExceptBind List

variable {shapes : Shapes} {c d : ConditionalBatch}

/-! ### Parts of an entry -/

theorem extends_readByte : readByte.Extends := by
  intro bs b rest more h
  cases bs with
  | nil => simp [readByte] at h
  | cons b' bs =>
    obtain ⟨rfl, rfl⟩ : b' = b ∧ bs = rest := by simpa [readByte] using h
    rfl

theorem reads_readByte (b : UInt8) : readByte.Reads [b] b := fun _ => rfl

theorem extends_readUint32 : readUint32.Extends := extends_readWord 4

theorem reads_readUint32 {n : Nat} (h : n < 2 ^ 32) : readUint32.Reads (writeUint32 n) n :=
  reads_readWord h

theorem extends_readBytes : readBytes.Extends := extends_readUint32.bind fun n => extends_readFull n

variable {bs body : List UInt8} {badKind : UInt8 → LogErr} {key value : Reader LogErr (List UInt8)}
  {k : RaftLogEntry}

theorem reads_readBytes (h : bs.length < 2 ^ 32) : readBytes.Reads (writeBytes bs) bs :=
  (reads_readUint32 h).bind (reads_readFull bs)

theorem extends_readBoundedBytes (limit : Nat) : (readBoundedBytes limit).Extends :=
  extends_readUint32.bind fun n => (Extends.fail _).ite (extends_readFull n)

variable {limit : Nat} {field : String} {op : BatchOp} {e : RaftLogEntry} {data : List UInt8}

theorem reads_readBoundedBytes (hlimit : limit < 2 ^ 32) (h : bs.length ≤ limit) :
    (readBoundedBytes limit).Reads (writeBytes bs) bs := by
  refine (reads_readUint32 (by omega)).bind ?_
  rw [if_neg (by omega)]
  exact reads_readFull bs

theorem extends_readBoundedCount (field : String) (limit : Nat) :
    (readBoundedCount field limit).Extends :=
  extends_readUint32.bind fun n => (Extends.fail _).ite (Extends.pure n)

theorem extends_readOp (hkey : key.Extends) (hvalue : value.Extends) :
    (readOp badKind key value).Extends := by
  refine extends_readByte.bind fun kind => (Extends.fail _).ite ?_
  refine hkey.bind fun k => ?_
  exact (Extends.pure _).ite (hvalue.bind fun v => .pure _)

/-- An operation whose value is empty if it deletes is read back. -/
theorem reads_readOp (op : BatchOp) (hkey : key.Reads (writeBytes op.key) op.key)
    (hvalue : op.delete = false → value.Reads (writeBytes op.value) op.value)
    (hdelete : op.delete = true → op.value = []) :
    (readOp badKind key value).Reads (writeBatchOp op) op := by
  obtain ⟨delete, k, v⟩ := op
  cases delete with
  | true =>
    obtain rfl : v = [] := hdelete rfl
    exact (reads_readByte 1).bind (hkey.map (.pure _))
  | false => exact (reads_readByte 0).bind (hkey.bind ((hvalue rfl).map (Reads.pure _)))

theorem extends_readList {α : Type} {read : Reader LogErr α} (h : read.Extends) :
    (readList field limit read).Extends :=
  (extends_readBoundedCount field limit).bind fun n => h.times n

theorem reads_readList {α : Type} {read : Reader LogErr α} {write : α → List UInt8} {as : List α}
    (hlimit : limit < 2 ^ 32) (hcount : as.length ≤ limit) (h : ∀ a ∈ as, read.Reads (write a) a) :
    (readList field limit read).Reads (writeList write as) as := by
  refine .bind ?_ (.times h)
  refine (reads_readUint32 (by omega)).map ?_
  rw [if_neg (by omega)]
  exact .pure as.length

theorem extends_readTerm (version : UInt8) : (readTerm version).Extends :=
  ((extends_readWord 8).bind fun _ => .pure _).ite (Extends.pure 0)

/-! ### Conditional batches -/

theorem extends_decodeConditionalBatch : (decodeConditionalBatch shapes).Extends := by
  have hop : ∀ badKind, (readOp badKind (readBoundedBytes maxConditionalKeyBytes)
      (readBoundedBytes maxConditionalValueBytes)).Extends := fun _ =>
    extends_readOp (extends_readBoundedBytes _) (extends_readBoundedBytes _)
  have hset : readSet.Extends := (extends_readBoundedBytes _).bind fun _ =>
      (extends_readBoundedBytes _).bind fun _ => .pure _
  have hreplacement : readReplacement.Extends :=
    (extends_readBoundedBytes _).bind fun _ => (extends_readList hset).bind fun _ => .pure _
  refine extends_readByte.bind fun version => (Extends.fail _).ite ?_
  refine (extends_readTerm version).bind fun term => ?_
  refine (extends_readList ((hop _).bind fun _ => .pure _)).bind fun preconditions => ?_
  refine (extends_readList (hop _)).bind fun mutations => ?_
  refine (extends_readList hreplacement).bind fun replacements => ?_
  rw [canonicalRead]
  cases canonicalConditionalBatch shapes ⟨version, term, preconditions, mutations, replacements⟩ with
  | ok c => exact .pure c
  | error e => exact .fail _

theorem validateConditionalKey_eq_ok {key : List UInt8}
    (h : validateConditionalKey field key = .ok ()) : key.length ≤ maxConditionalKeyBytes := by
  rw [validateConditionalKey, ite_error_eq_ok, ite_error_eq_ok] at h
  omega

/-- An operation with a bounded key and, unless it deletes, a bounded value is read back. -/
theorem reads_boundedOp (op : BatchOp) (hkey : validateConditionalKey field op.key = .ok ())
    (hdelete : ¬ (op.delete = true ∧ op.value.length ≠ 0))
    (hvalue : ¬ (¬ op.delete = true ∧ maxConditionalValueBytes < op.value.length)) :
    (readOp badKind (readBoundedBytes maxConditionalKeyBytes)
      (readBoundedBytes maxConditionalValueBytes)).Reads (writeBatchOp op) op := by
  refine reads_readOp op (reads_readBoundedBytes (by decide) (validateConditionalKey_eq_ok hkey))
    ?_ ?_
  · intro hfalse
    refine reads_readBoundedBytes (by decide) ?_
    by_contra hlong
    exact hvalue ⟨by simp [hfalse], Nat.lt_of_not_le hlong⟩
  · intro htrue
    by_contra hne
    exact hdelete ⟨htrue, fun hlen => hne (length_eq_zero_iff.mp hlen)⟩

theorem reads_readPrecondition {p : ConditionalPrecondition} (h : validatePrecondition p = .ok ()) :
    readPrecondition.Reads (writePrecondition p) p := by
  rw [validatePrecondition, check_bind_eq_ok, ite_error_eq_ok, ite_error_eq_ok] at h
  obtain ⟨hkey, habsent, hvalue, -⟩ := h
  exact (reads_boundedOp ⟨p.expectAbsent, p.key, p.expectedValue⟩ hkey habsent hvalue).map (.pure _)

theorem reads_readBatchOp (h : validateMutation op = .ok ()) :
    readBatchOp.Reads (writeBatchOp op) op := by
  rw [validateMutation, check_bind_eq_ok, ite_error_eq_ok, ite_error_eq_ok] at h
  obtain ⟨hkey, hdelete, hvalue, -⟩ := h
  exact reads_boundedOp op hkey hdelete hvalue

theorem reads_readSet {keyPrefix : List UInt8} {s : BatchOp}
    (h : validateSet keyPrefix s = .ok ()) : readSet.Reads (writeSet s) s := by
  obtain ⟨hdelete, hkey, -, hvalue⟩ := validateSet_eq_ok h
  refine (reads_readBoundedBytes (by decide) hkey).bind ?_
  refine (reads_readBoundedBytes (by decide) hvalue).map ?_
  obtain ⟨delete, k, v⟩ := s
  obtain rfl : delete = false := hdelete
  exact .pure _

theorem reads_readReplacement {mutations : List BatchOp} {r : ConditionalPrefixReplacement}
    (h : Replaces mutations r) : readReplacement.Reads (writeReplacement r) r := by
  have hnamespace : r.keyPrefix.length ≤ maxConditionalKeyBytes := by
    rw [h.catalog]
    decide
  refine (reads_readBoundedBytes (by decide) hnamespace).bind ?_
  refine (reads_readList (by decide) h.count fun s hs => ?_).map (.pure _)
  exact reads_readSet (check_of_checkEach h.sets s hs)

/-- Only the term-fenced version carries a term. -/
theorem term_of_valid (h : Valid shapes c) (hsupported : supportedVersion c.version = true)
    (hv : c.version ≠ conditionalBatchTermFencedVersion) : c.expectedRaftTerm = 0 := by
  by_contra hterm
  have hkinds := of_decide_eq_true hsupported
  have henvelope : Shapes.envelope c = false := by simp [Shapes.envelope, hterm]
  rcases hkinds with h1 | h2 | h3 | h4
  · have hbad := h.term
    rw [validateTerm, if_pos ⟨h1, hterm⟩] at hbad
    cases hbad
  · exact hv h2
  · have hbad := h.shape
    rw [Shapes.check, if_neg hv, if_pos h3, Shapes.tombstone, henvelope] at hbad
    cases hbad
  have hbad := h.shape
  have h3 : c.version ≠ chunkTombstoneConditionalBatchVersion := by
    rw [h4]
    decide
  rw [Shapes.check, if_neg hv, if_neg h3, if_pos h4, Shapes.tombstoneFenced, henvelope] at hbad
  cases hbad

/-- A fenced batch that allocates nothing has at most two mutations. -/
theorem mutations_of_valid (h : Valid shapes c) (hv : c.version = chunkTombstoneFencedBatchVersion)
    (hinode : hasInodeAllocationPrecondition c.preconditions = false) : c.mutations.length ≤ 2 := by
  have hshape := h.shape
  rw [Shapes.check, if_neg (by rw [hv]; decide), if_neg (by rw [hv]; decide), if_pos hv,
    Shapes.tombstoneFenced, ite_error_eq_ok, ite_error_eq_ok, hinode] at hshape
  obtain ⟨-, -, hshape⟩ := hshape
  by_contra hmany
  have hn : ∃ n, c.mutations.length = n + 3 := ⟨c.mutations.length - 3, by omega⟩
  obtain ⟨n, hn⟩ := hn
  rw [hn] at hshape
  simp at hshape

/-- The limits a canonical batch keeps are not above those it is read with. -/
theorem limits_le (h : Valid shapes c) (hpre : c.preconditions.length ≤ c.limits.1)
    (hmut : c.mutations.length ≤ c.limits.2) : c.preconditions.length ≤ (readLimits c.version).1 ∧
      c.mutations.length ≤ (readLimits c.version).2 := by
  unfold ConditionalBatch.limits at hpre hmut
  unfold readLimits
  by_cases hv : c.version = chunkTombstoneFencedBatchVersion
  · rw [if_pos hv]
    by_cases hinode : hasInodeAllocationPrecondition c.preconditions = true
    · rw [if_pos ⟨hv, hinode⟩] at hpre hmut
      exact ⟨hpre, hmut⟩
    · rw [if_neg fun hand => hinode hand.2] at hpre hmut
      have hfew := mutations_of_valid h hv (by simpa using hinode)
      have hroom : maxConditionalPreconditions ≤ 2 + 2 * maxChunkAllocationBatch := by decide
      have hroom' : 2 ≤ 2 + maxChunkAllocationBatch := by decide
      exact ⟨le_trans hpre hroom, le_trans hfew hroom'⟩
  · rw [if_neg fun hand => hv hand.1] at hpre hmut
    rw [if_neg hv]
    exact ⟨hpre, hmut⟩

/-- **A canonical batch is its own canonical form.** -/
theorem canonical_idem (h : canonicalConditionalBatch shapes c = .ok d) :
    canonicalConditionalBatch shapes d = .ok d := by
  obtain ⟨hversion, hpre, hmut, hrepl, hvalid, rfl⟩ := canonicalConditionalBatch_eq_ok.mp h
  have hlimits : c.sorted.limits = c.limits := by
    have hinode : hasInodeAllocationPrecondition c.sorted.preconditions =
        hasInodeAllocationPrecondition c.preconditions := (sortBy_perm _ _).any_eq
    rw [ConditionalBatch.limits, hinode]
    rfl
  have hsorted : c.sorted.sorted = c.sorted := by
    have hsets : ∀ r : ConditionalPrefixReplacement, ConditionalBatch.sortSets
        (ConditionalBatch.sortSets r) = ConditionalBatch.sortSets r := by
      intro r
      rw [ConditionalBatch.sortSets, ConditionalBatch.sortSets,
        sortBy_eq_self (sortBy_pairwise _ _)]
    have hreplaced : sortBy (fun r : ConditionalPrefixReplacement => rank r.keyPrefix)
        c.sorted.prefixReplacements = c.sorted.prefixReplacements := by
      refine sortBy_eq_self (pairwise_map.mpr ?_)
      exact sortBy_pairwise _ c.prefixReplacements
    rw [ConditionalBatch.sorted, hreplaced]
    have hmap : c.sorted.prefixReplacements.map ConditionalBatch.sortSets =
        c.sorted.prefixReplacements := by
      rw [ConditionalBatch.sorted, map_map]
      exact map_congr_left fun r _ => hsets r
    have hp : sortBy (fun p : ConditionalPrecondition => rank p.key) c.sorted.preconditions =
        c.sorted.preconditions := sortBy_eq_self (sortBy_pairwise _ _)
    have hm : sortBy (fun op : BatchOp => rank op.key) c.sorted.mutations = c.sorted.mutations :=
      sortBy_eq_self (sortBy_pairwise _ _)
    rw [hmap, hp, hm]
  refine canonicalConditionalBatch_eq_ok.mpr ⟨hversion, ?_, ?_, ?_, hsorted.symm ▸ hvalid, hsorted⟩
  · rw [hlimits]
    exact le_of_eq_of_le (sortBy_perm _ c.preconditions).length_eq hpre
  · rw [hlimits]
    exact le_of_eq_of_le (sortBy_perm _ c.mutations).length_eq hmut
  · have hlen : c.sorted.prefixReplacements.length = c.prefixReplacements.length := by
      rw [ConditionalBatch.sorted, length_map]
      exact (sortBy_perm _ c.prefixReplacements).length_eq
    rw [hlen]
    exact hrepl

/-- **A canonical batch is read back.** -/
theorem reads_decodeConditionalBatch (h : canonicalConditionalBatch shapes c = .ok c) :
    (decodeConditionalBatch shapes).Reads (writeConditional c) c := by
  obtain ⟨hversion, hpre, hmut, hrepl, hvalid, hsorted⟩ := canonicalConditionalBatch_eq_ok.mp h
  rw [hsorted, validateConditionalBatch_eq_ok] at hvalid
  obtain ⟨hpre, hmut⟩ := limits_le hvalid hpre hmut
  have hterm : (readTerm c.version).Reads (writeTerm c) c.expectedRaftTerm := by
    rw [readTerm, writeTerm]
    by_cases hv : c.version = conditionalBatchTermFencedVersion
    · rw [if_pos hv, if_pos hv]
      refine (reads_readWord c.expectedRaftTerm.toNat_lt).map ?_
      rw [UInt64.ofNat_toNat]
      exact .pure _
    · rw [if_neg hv, if_neg hv, term_of_valid hvalid hversion hv]
      exact .pure 0
  have hlimit : (readLimits c.version).1 < 2 ^ 32 ∧ (readLimits c.version).2 < 2 ^ 32 := by
    unfold readLimits
    split_ifs <;> decide
  have hreplacements : ∀ r ∈ c.prefixReplacements,
      readReplacement.Reads (writeReplacement r) r := by
    rcases validateReplacements_eq_ok hvalid.replacements with hnone | ⟨r, hone, hr⟩
    · simp [hnone]
    · rw [hone]
      intro r' hr'
      obtain rfl := mem_singleton.mp hr'
      exact reads_readReplacement hr
  refine (reads_readByte c.version).bind ?_
  rw [if_neg (by simpa using hversion)]
  refine hterm.bind ?_
  refine (reads_readList hlimit.1 hpre fun p hp =>
    reads_readPrecondition (check_of_checkEach hvalid.preconditions p hp)).bind ?_
  refine (reads_readList hlimit.2 hmut fun op hop =>
    reads_readBatchOp (check_of_checkEach hvalid.mutations op hop)).bind ?_
  refine (reads_readList (by decide) hrepl hreplacements).map ?_
  rw [canonicalRead, h]
  exact .pure c

/-! ### Sizes -/

theorem length_writeBytes (bs : List UInt8) : (writeBytes bs).length = 4 + bs.length := by
  rw [writeBytes, writeUint32, length_append, length_be]

theorem length_writeBatchOp (op : BatchOp) : (writeBatchOp op).length = op.encodedSize := by
  rw [writeBatchOp, BatchOp.encodedSize]
  split_ifs
  · rw [length_append, length_writeBytes, length_singleton]
    omega
  · rw [length_append, length_append, length_writeBytes, length_writeBytes, length_singleton]
    omega

theorem length_writeList {α : Type} {write : α → List UInt8} {size : α → Nat}
    (h : ∀ a, (write a).length = size a) (as : List α) :
    (writeList write as).length = 4 + (as.map size).sum := by
  rw [writeList, writeUint32, length_append, length_be, length_flatMap]
  simp only [h]

theorem length_writePrecondition (p : ConditionalPrecondition) :
    (writePrecondition p).length = p.encodedSize :=
  length_writeBatchOp ⟨p.expectAbsent, p.key, p.expectedValue⟩

theorem length_writeReplacement (r : ConditionalPrefixReplacement) :
    (writeReplacement r).length = r.encodedSize := by
  have hset : ∀ s : BatchOp, (writeSet s).length = 4 + s.key.length + 4 + s.value.length := by
    intro s
    rw [writeSet, length_append, length_writeBytes, length_writeBytes]
    omega
  rw [writeReplacement, length_append, length_writeBytes, length_writeList hset,
    ConditionalPrefixReplacement.encodedSize]
  omega

/-- The size that is computed in advance is the size that is written. -/
theorem length_writeConditional (c : ConditionalBatch) :
    1 + (writeConditional c).length = conditionalBatchEncodedSize c := by
  have hterm : (writeTerm c).length =
      if c.version = conditionalBatchTermFencedVersion then 8 else 0 := by
    rw [writeTerm]
    split_ifs
    · exact length_be _ _
    · rfl
  have hpre : (writeList writePrecondition c.preconditions).length =
      4 + (c.preconditions.map (·.encodedSize)).sum := length_writeList length_writePrecondition _
  have hmut : (writeList writeBatchOp c.mutations).length =
      4 + (c.mutations.map (·.encodedSize)).sum := length_writeList length_writeBatchOp _
  have hrepl : (writeList writeReplacement c.prefixReplacements).length =
      4 + (c.prefixReplacements.map (·.encodedSize)).sum :=
    length_writeList length_writeReplacement _
  simp only [writeConditional, length_append, length_singleton, hterm, hpre, hmut, hrepl,
    conditionalBatchEncodedSize]
  omega

/-! ### Entries -/

/-- What an operation of a plain batch says: one that deletes has no value. -/
def BatchOp.plain (op : BatchOp) : BatchOp := if op.delete then { op with value := [] } else op

/-- What an entry says: the fields of other operations do not count. -/
def RaftLogEntry.canonical (shapes : Shapes) (e : RaftLogEntry) : Except LogErr RaftLogEntry :=
  match e.op with
  | .set => .ok ⟨.set, e.key, e.value, [], none⟩
  | .cas => .ok ⟨.cas, e.key, e.value, [], none⟩
  | .delete => .ok ⟨.delete, e.key, [], [], none⟩
  | .batch => .ok ⟨.batch, [], [], e.batch.map BatchOp.plain, none⟩
  | .conditionalBatch =>
    match e.conditional with
    | none => .error (.conditional .required)
    | some c =>
      ((canonicalConditionalBatch shapes c).mapError .conditional).map fun d =>
        ⟨.conditionalBatch, [], [], [], some d⟩
  | .unknown b _ => .error (.unknownOp b)

/-- The lengths of an entry that are not checked fit the four bytes they are written in. -/
def RaftLogEntry.Fits (e : RaftLogEntry) : Prop :=
  match e.op with
  | .set | .cas => e.key.length < 2 ^ 32 ∧ e.value.length < 2 ^ 32
  | .delete => e.key.length < 2 ^ 32
  | .batch => e.batch.length < 2 ^ 32 ∧
      ∀ op ∈ e.batch, op.key.length < 2 ^ 32 ∧ (op.delete = false → op.value.length < 2 ^ 32)
  | .conditionalBatch | .unknown _ _ => True

theorem BatchOp.plain_delete (op : BatchOp) : op.plain.delete = op.delete := by
  rw [plain]
  split_ifs <;> rfl

theorem BatchOp.plain_key (op : BatchOp) : op.plain.key = op.key := by
  rw [plain]
  split_ifs <;> rfl

theorem BatchOp.plain_of_set (h : op.delete = false) : op.plain = op := by
  rw [plain, h]
  rfl

theorem writeBatchOp_plain (op : BatchOp) : writeBatchOp op.plain = writeBatchOp op := by
  rw [BatchOp.plain]
  split_ifs with h
  · rw [writeBatchOp, writeBatchOp, if_pos h, if_pos h]
  · rfl

theorem reads_readPlainOp (hkey : op.key.length < 2 ^ 32)
    (hvalue : op.delete = false → op.value.length < 2 ^ 32) :
    readPlainOp.Reads (writeBatchOp op) op.plain := by
  rw [← writeBatchOp_plain]
  refine reads_readOp op.plain ?_ ?_ ?_
  · rw [op.plain_key]
    exact reads_readBytes hkey
  · intro hset
    rw [op.plain_delete] at hset
    rw [op.plain_of_set hset]
    exact reads_readBytes (hvalue hset)
  · intro hdelete
    rw [op.plain_delete] at hdelete
    rw [BatchOp.plain, if_pos hdelete]

theorem readBatchCount_eq_ok {n : Nat} {rest : List UInt8} :
    readBatchCount bs = .ok (n, rest) ↔ readUint32 bs = .ok (n, rest) ∧ n ≤ rest.length / 5 := by
  rw [readBatchCount]
  cases readUint32 bs with
  | error e => simp
  | ok p =>
    obtain ⟨m, mid⟩ := p
    simp only [ite_error_eq_ok, Nat.not_lt, Except.ok.injEq]
    constructor
    · rintro ⟨hroom, h⟩
      cases h
      exact ⟨rfl, hroom⟩
    · rintro ⟨h, hroom⟩
      cases h
      exact ⟨hroom, rfl⟩

theorem extends_readBatchCount : readBatchCount.Extends := by
  intro bs n rest more h
  obtain ⟨hword, hroom⟩ := readBatchCount_eq_ok.mp h
  refine readBatchCount_eq_ok.mpr ⟨extends_readUint32 bs n rest more hword, ?_⟩
  rw [length_append]
  omega

theorem extends_readBody (op : RaftLogOp) : (readBody shapes op).Extends := by
  have hplain : readPlainOp.Extends := extends_readOp extends_readBytes extends_readBytes
  cases op with
  | set | cas => exact extends_readBytes.bind fun _ => extends_readBytes.bind fun _ => .pure _
  | delete => exact extends_readBytes.bind fun _ => .pure _
  | batch =>
    exact extends_readBatchCount.bind fun n => (hplain.times n).bind fun _ => .pure _
  | conditionalBatch => exact extends_decodeConditionalBatch.bind fun _ => .pure _
  | unknown b h => exact .fail _

/-- Every operation takes five bytes or more. -/
theorem five_mul_le_length (ops : List BatchOp) :
    ops.length * 5 ≤ (ops.flatMap writeBatchOp).length := by
  induction ops with
  | nil => exact Nat.le_refl 0
  | cons op ops ih =>
    have hhead : 5 ≤ (writeBatchOp op).length := by
      rw [length_writeBatchOp, BatchOp.encodedSize]
      omega
    rw [flatMap_cons, length_append, length_cons]
    omega

/-- The operations of a plain batch, behind their count. -/
theorem reads_plainBatch {ops : List BatchOp} (hcount : ops.length < 2 ^ 32)
    (hops : ∀ op ∈ ops, op.key.length < 2 ^ 32 ∧ (op.delete = false → op.value.length < 2 ^ 32)) :
    (readBody shapes .batch).Reads (writeList writeBatchOp ops)
      ⟨.batch, [], [], ops.map BatchOp.plain, none⟩ := by
  intro rest
  have hbytes : (ops.map BatchOp.plain).flatMap writeBatchOp = ops.flatMap writeBatchOp := by
    rw [flatMap_map]
    exact congrArg (List.flatMap · ops) (funext writeBatchOp_plain)
  have htimes : (readPlainOp.times ops.length).Reads (ops.flatMap writeBatchOp)
      (ops.map BatchOp.plain) := by
    rw [← hbytes, ← ops.length_map BatchOp.plain]
    refine .times ?_
    intro op hop
    obtain ⟨op, hmem, rfl⟩ := mem_map.mp hop
    rw [writeBatchOp_plain]
    exact reads_readPlainOp (hops op hmem).1 (hops op hmem).2
  have hroom : ops.length ≤ (ops.flatMap writeBatchOp ++ rest).length / 5 := by
    have hfive := five_mul_le_length ops
    rw [Nat.le_div_iff_mul_le (by decide), length_append]
    omega
  have hcountRead : readBatchCount (writeUint32 ops.length ++ (ops.flatMap writeBatchOp ++ rest)) =
      .ok (ops.length, ops.flatMap writeBatchOp ++ rest) :=
    readBatchCount_eq_ok.mpr ⟨reads_readUint32 hcount _, hroom⟩
  have hbody : (readPlainOp.times ops.length >>= fun ops =>
      pure (⟨.batch, [], [], ops, none⟩ : RaftLogEntry)).Reads (ops.flatMap writeBatchOp)
      ⟨.batch, [], [], ops.map BatchOp.plain, none⟩ := htimes.map (Reads.pure _)
  rw [writeList, append_assoc, readBody, bind_eq, hcountRead]
  exact hbody rest

/-- The body of an entry that fits is read back as what the entry says. -/
theorem reads_encodeBody (hfits : e.Fits) (h : encodeBody shapes e = .ok body) :
    ∃ k, e.canonical shapes = .ok k ∧ (readBody shapes e.op).Reads body k := by
  obtain ⟨op, key, value, batch, conditional⟩ := e
  cases op with
  | set | cas =>
    cases h
    exact ⟨_, rfl, (reads_readBytes hfits.1).bind ((reads_readBytes hfits.2).map (Reads.pure _))⟩
  | delete =>
    cases h
    exact ⟨_, rfl, (reads_readBytes hfits).map (.pure _)⟩
  | batch =>
    cases h
    exact ⟨_, rfl, reads_plainBatch hfits.1 hfits.2⟩
  | conditionalBatch =>
    cases conditional with
    | none => cases h
    | some c =>
      obtain ⟨d, hd, hbody⟩ := bind_eq_ok.mp h
      rw [mapError_eq_ok] at hd
      obtain ⟨-, hbody⟩ := ite_error_eq_ok.mp hbody
      cases hbody
      refine ⟨⟨.conditionalBatch, [], [], [], some d⟩, ?_, ?_⟩
      · show ((canonicalConditionalBatch shapes c).mapError LogErr.conditional).map _ = _
        rw [hd]
        rfl
      · exact (reads_decodeConditionalBatch (canonical_idem hd)).map (.pure _)
  | unknown b hb => cases h

/-- A conditional batch that is written is not too long to be read. -/
theorem length_encodeBody (h : encodeBody shapes e = .ok body) (hop : e.op = .conditionalBatch) :
    body.length + 1 ≤ maxRaftLogEntryBytes := by
  obtain ⟨op, key, value, batch, conditional⟩ := e
  obtain rfl : op = .conditionalBatch := hop
  cases conditional with
  | none => cases h
  | some c =>
    obtain ⟨d, -, hbody⟩ := bind_eq_ok.mp h
    obtain ⟨hsize, hbody⟩ := ite_error_eq_ok.mp hbody
    cases hbody
    omega

/-! ### What can be decoded -/

theorem gives_readBytes : readBytes.Gives fun bs => bs.length < 2 ^ 32 := by
  refine (gives_readWord 4).bind fun n hn => ?_
  intro bs a rest h
  rw [gives_readFull n bs a rest h]
  exact hn

/-- Whatever is decoded fits. -/
theorem gives_readBody (op : RaftLogOp) : (readBody shapes op).Gives RaftLogEntry.Fits := by
  cases op with
  | set | cas =>
    exact gives_readBytes.bind fun key hkey => gives_readBytes.bind fun value hvalue =>
      Gives.pure ⟨hkey, hvalue⟩
  | delete => exact gives_readBytes.bind fun key hkey => .pure hkey
  | batch =>
    have hcount : readBatchCount.Gives (· < 2 ^ 32) := by
      intro bs n rest h
      exact gives_readWord 4 bs n rest (readBatchCount_eq_ok.mp h).1
    have hop : readPlainOp.Gives fun op =>
        op.key.length < 2 ^ 32 ∧ (op.delete = false → op.value.length < 2 ^ 32) := by
      have hany : readByte.Gives fun _ => True := fun _ _ _ _ => trivial
      refine hany.bind fun kind _ => ?_
      by_cases hkind : 1 < kind
      · rw [if_pos hkind]
        exact .fail _
      rw [if_neg hkind]
      refine gives_readBytes.bind fun k hk => ?_
      by_cases hone : kind = 1
      · rw [if_pos hone]
        exact .pure ⟨hk, by simp⟩
      · rw [if_neg hone]
        exact gives_readBytes.bind fun v hv => .pure ⟨hk, fun _ => hv⟩
    refine hcount.bind fun n hn => (hop.times n).bind fun ops hops => .pure ?_
    exact ⟨show ops.length < 2 ^ 32 from hops.1 ▸ hn, hops.2⟩
  | conditionalBatch =>
    have hany : (decodeConditionalBatch shapes).Gives fun _ => True := fun _ _ _ _ => trivial
    exact hany.bind fun c _ => .pure trivial
  | unknown b h => exact .fail _

theorem atEnd_eq_ok {r : Except LogErr (RaftLogEntry × List UInt8)} :
    atEnd r = .ok e ↔ r = .ok (e, []) := by
  cases r with
  | error err => simp [atEnd]
  | ok p =>
    obtain ⟨e', more⟩ := p
    cases more with
    | nil | cons b more => simp [atEnd]

theorem fits_of_decode (h : decodeRaftLogEntry shapes data = .ok k) : k.Fits := by
  cases data with
  | nil => cases h
  | cons b rest =>
    rw [decodeRaftLogEntry, ite_error_eq_ok, atEnd_eq_ok] at h
    exact gives_readBody _ rest k [] h.2

/-- An entry fits if what it says fits. -/
theorem fits_of_canonical (h : e.canonical shapes = .ok k) (hk : k.Fits) : e.Fits := by
  obtain ⟨op, key, value, batch, conditional⟩ := e
  cases op with
  | set | cas | delete =>
    cases h
    exact hk
  | batch =>
    cases h
    obtain ⟨hcount, hops⟩ := hk
    refine ⟨by simpa using hcount, ?_⟩
    intro op hop
    have hplain := hops op.plain (mem_map_of_mem hop)
    rw [op.plain_key, op.plain_delete] at hplain
    refine ⟨hplain.1, fun hset => ?_⟩
    have hvalue := hplain.2 hset
    rwa [op.plain_of_set hset] at hvalue
  | conditionalBatch | unknown b hb => trivial

/-! ### Round trips -/

/--
What the log relies on: an encoding is decoded to what the entry says, an encoding that
goes on or is cut short is rejected, entries that fit and have the same encoding say the
same, and the size that is computed in advance is that of the encoding.
-/
structure RoundTrips (shapes : Shapes) (e : RaftLogEntry) (data : List UInt8) : Prop where
  decoded : ∃ k, e.canonical shapes = .ok k ∧ decodeRaftLogEntry shapes data = .ok k
  longer : ∀ more, more ≠ [] → ∃ err, decodeRaftLogEntry shapes (data ++ more) = .error err
  shorter : ∀ cut missing, cut ++ missing = data → missing ≠ [] →
    ∃ err, decodeRaftLogEntry shapes cut = .error err
  same : ∀ e' : RaftLogEntry, e'.Fits → encodeChecked shapes e' = .ok data →
    e'.canonical shapes = e.canonical shapes
  size : e.op = .conditionalBatch → ∀ c d, e.conditional = some c →
    canonicalConditionalBatch shapes c = .ok d → conditionalBatchEncodedSize d = data.length

theorem encodeChecked_eq_ok : encodeChecked shapes e = .ok data ↔
      ∃ body, encodeBody shapes e = .ok body ∧ e.op.toByte :: body = data := by
  rw [encodeChecked, ExceptBind.bind_eq_ok]
  refine exists_congr fun body => Iff.rfl.and ?_
  exact ⟨fun h => Except.ok.inj h, fun h => congrArg _ h⟩

/-- An entry that fits is decoded to what it says. -/
theorem decode_encodeChecked (hfits : e.Fits) (h : encodeChecked shapes e = .ok data) :
    ∃ k, e.canonical shapes = .ok k ∧ decodeRaftLogEntry shapes data = .ok k := by
  obtain ⟨body, hbody, rfl⟩ := encodeChecked_eq_ok.mp h
  obtain ⟨k, hk, hreads⟩ := reads_encodeBody hfits hbody
  refine ⟨k, hk, ?_⟩
  rw [decodeRaftLogEntry, RaftLogOp.ofByte_toByte, ite_error_eq_ok, atEnd_eq_ok]
  constructor
  · rintro ⟨hop, hlong⟩
    have := length_encodeBody hbody hop
    omega
  · have hend := hreads []
    rwa [append_nil] at hend

theorem RoundTrips.of_fits (hfits : e.Fits) (h : encodeChecked shapes e = .ok data) :
    RoundTrips shapes e data := by
  obtain ⟨body, hbody, hdata⟩ := encodeChecked_eq_ok.mp h
  obtain ⟨k, hk, hreads⟩ := reads_encodeBody hfits hbody
  refine ⟨decode_encodeChecked hfits h, ?_, ?_, ?_, ?_⟩
  · intro more hmore
    refine exists_error fun k' hok => ?_
    rw [← hdata, cons_append, decodeRaftLogEntry, RaftLogOp.ofByte_toByte, ite_error_eq_ok,
      atEnd_eq_ok, hreads more] at hok
    exact hmore (Prod.mk.inj (Except.ok.inj hok.2)).2
  · intro cut missing hcut hmissing
    refine exists_error fun k' hok => ?_
    cases cut with
    | nil => cases hok
    | cons b cut =>
      rw [← hdata, cons_append] at hcut
      obtain ⟨rfl, hbody'⟩ := List.cons.inj hcut
      rw [decodeRaftLogEntry, RaftLogOp.ofByte_toByte, ite_error_eq_ok, atEnd_eq_ok] at hok
      exact (extends_readBody e.op).cut_ne hreads hbody' hmissing k' [] hok.2
  · intro e' hfits' hsame
    obtain ⟨k', hk', hdecode'⟩ := decode_encodeChecked hfits' hsame
    obtain ⟨k, hk, hdecode⟩ := decode_encodeChecked hfits h
    rw [hdecode] at hdecode'
    rw [hk, hk', Except.ok.inj hdecode']
  · intro hop c d hc hd
    obtain ⟨op, key, value, batch, conditional⟩ := e
    obtain rfl : op = .conditionalBatch := hop
    obtain rfl : conditional = some c := hc
    obtain ⟨d', hd', hwritten⟩ := bind_eq_ok.mp hbody
    rw [mapError_eq_ok, hd] at hd'
    cases hd'
    obtain ⟨-, hwritten⟩ := ite_error_eq_ok.mp hwritten
    cases hwritten
    rw [← hdata, length_cons, ← length_writeConditional]
    omega

/--
**Round trips.**  An encoding does what the log relies on exactly if the lengths that
nobody checks fit the four bytes they are written in.
-/
theorem log_entry_round_trips (shapes : Shapes) (e : RaftLogEntry) (data : List UInt8)
    (h : encodeChecked shapes e = .ok data) : RoundTrips shapes e data ↔ e.Fits := by
  constructor
  · intro htrips
    obtain ⟨k, hk, hdecode⟩ := htrips.decoded
    exact fits_of_canonical hk (fits_of_decode hdecode)
  · intro hfits
    exact .of_fits hfits h

theorem log_entry_round_trips_catalog :
    ∃ data, encodeChecked anyShape ⟨.conditionalBatch, [], [], [], some sampleBatch⟩ = .ok data ∧
      RoundTrips anyShape ⟨.conditionalBatch, [], [], [], some sampleBatch⟩ data := by
  cases hdata : encodeChecked anyShape ⟨.conditionalBatch, [], [], [], some sampleBatch⟩ with
  | error e =>
    have hok : (encodeChecked anyShape
      ⟨.conditionalBatch, [], [], [], some sampleBatch⟩).isOk = true := by decide +kernel
    rw [hdata] at hok
    cases hok
  | ok data => exact ⟨data, rfl, (log_entry_round_trips anyShape _ data hdata).mpr trivial⟩

/-- A key of four gibibytes is written with the length zero and not decoded. -/
theorem long_key_is_not_decoded :
    ∃ e : RaftLogEntry, ∃ data k, e.op = .set ∧ encodeChecked anyShape e = .ok data ∧
      e.canonical anyShape = .ok k ∧ decodeRaftLogEntry anyShape data ≠ .ok k := by
  refine ⟨⟨.set, .replicate (2 ^ 32) 0, [], [], none⟩, _, _, rfl, rfl, rfl, ?_⟩
  intro hdecode
  have hfits : (List.replicate (2 ^ 32) (0 : UInt8)).length < 2 ^ 32 := (fits_of_decode hdecode).1
  rw [length_replicate] at hfits
  exact absurd hfits (Nat.lt_irrefl _)

end Nufs.Metadata.Pebble
