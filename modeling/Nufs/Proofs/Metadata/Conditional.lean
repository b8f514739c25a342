/-
What a conditional batch does to the rows.

A batch that passes names each of its keys once, so its order does not matter: the
canonical form is the same for every order, and each key is changed by one part of the
batch.  Everything that can fail comes before the commit.
-/
import Nufs.Metadata.Conditional
import Nufs.Lib.ExceptBind

namespace Nufs.Metadata.Pebble

open ByteOrder KeySort ExceptBind List

variable {shapes : Shapes} {faults : Faults} {rows : Rows} {c c' d : ConditionalBatch}

/-! ### The canonical form -/

/-- A batch that passes: its version is known, its parts are few, and it is valid once sorted. -/
theorem canonicalConditionalBatch_eq_ok : canonicalConditionalBatch shapes c = .ok d ↔
      supportedVersion c.version = true ∧ c.preconditions.length ≤ c.limits.1 ∧
        c.mutations.length ≤ c.limits.2 ∧
        c.prefixReplacements.length ≤ maxConditionalPrefixReplacements ∧
        validateConditionalBatch shapes c.sorted = .ok () ∧ c.sorted = d := by
  rw [canonicalConditionalBatch, ite_error_eq_ok, ite_error_eq_ok, ite_error_eq_ok,
    ite_error_eq_ok, check_bind_eq_ok]
  simp only [not_not, Nat.not_lt]
  exact Iff.rfl.and (Iff.rfl.and (Iff.rfl.and (Iff.rfl.and (Iff.rfl.and
    ⟨fun h => Except.ok.inj h, fun h => congrArg _ h⟩))))

/-- What is checked of a sorted batch. -/
structure Valid (shapes : Shapes) (c : ConditionalBatch) : Prop where
  term : validateTerm c = .ok ()
  preconditions : checkEach validatePrecondition (fun p => rank p.key)
    (fun p => .duplicatePrecondition p.key) none c.preconditions = .ok ()
  mutations : checkEach validateMutation (fun op => rank op.key)
    (fun op => .duplicateMutation op.key) none c.mutations = .ok ()
  replacements : validateReplacements c.mutations none c.prefixReplacements = .ok ()
  size : conditionalBatchEncodedSize c ≤ maxRaftLogEntryBytes
  shape : shapes.check c = .ok ()

theorem validateConditionalBatch_eq_ok :
    validateConditionalBatch shapes c = .ok () ↔ Valid shapes c := by
  rw [validateConditionalBatch, check_bind_eq_ok, check_bind_eq_ok, check_bind_eq_ok,
    check_bind_eq_ok, ite_error_eq_ok, mapError_eq_ok, Nat.not_lt]
  exact ⟨fun ⟨h1, h2, h3, h4, h5, h6⟩ => ⟨h1, h2, h3, h4, h5, h6⟩,
    fun ⟨h1, h2, h3, h4, h5, h6⟩ => ⟨h1, h2, h3, h4, h5, h6⟩⟩

/-- A batch with the parts of another one in another order. -/
structure Permuted (c c' : ConditionalBatch) : Prop where
  version : c'.version = c.version
  term : c'.expectedRaftTerm = c.expectedRaftTerm
  preconditions : c'.preconditions.Perm c.preconditions
  mutations : c'.mutations.Perm c.mutations
  replacements : c'.prefixReplacements = c.prefixReplacements

namespace Permuted

section

variable (h : Permuted c c')
include h

theorem symm : Permuted c' c :=
  ⟨h.version.symm, h.term.symm, h.preconditions.symm, h.mutations.symm, h.replacements.symm⟩

theorem limits : c'.limits = c.limits := by
  have hinode : hasInodeAllocationPrecondition c'.preconditions =
      hasInodeAllocationPrecondition c.preconditions := h.preconditions.any_eq
  rw [ConditionalBatch.limits, h.version, hinode, ConditionalBatch.limits]

/-- Sorting a batch that is valid then does away with the order. -/
theorem sorted (hvalid : Valid shapes c.sorted) : c'.sorted = c.sorted := by
  have hpre := sortBy_eq_of_perm h.preconditions.symm (nodup_of_checkEach hvalid.preconditions)
  have hmut := sortBy_eq_of_perm h.mutations.symm (nodup_of_checkEach hvalid.mutations)
  rw [ConditionalBatch.sorted, ConditionalBatch.sorted, h.version, h.term, h.replacements, hpre,
    hmut]

theorem canonical (hok : canonicalConditionalBatch shapes c = .ok d) :
    canonicalConditionalBatch shapes c' = .ok d := by
  obtain ⟨hversion, hpre, hmut, hrepl, hvalid, hd⟩ := canonicalConditionalBatch_eq_ok.mp hok
  have hsorted := h.sorted (validateConditionalBatch_eq_ok.mp hvalid)
  refine canonicalConditionalBatch_eq_ok.mpr ⟨?_, ?_, ?_, ?_, ?_, ?_⟩
  · rw [h.version]
    exact hversion
  · rw [h.limits, h.preconditions.length_eq]
    exact hpre
  · rw [h.limits, h.mutations.length_eq]
    exact hmut
  · rw [h.replacements]
    exact hrepl
  · rw [hsorted]
    exact hvalid
  · rw [hsorted]
    exact hd

/-- The outcome of a permuted batch, up to which error it is refused with. -/
theorem applied :
    applyConditionalBatch shapes faults rows c' = applyConditionalBatch shapes faults rows c ∨
      ∃ e e', applyConditionalBatch shapes faults rows c = (.error (.refused e), rows) ∧
        applyConditionalBatch shapes faults rows c' = (.error (.refused e'), rows) := by
  cases hc : canonicalConditionalBatch shapes c with
  | ok d =>
    left
    simp only [applyConditionalBatch, prepareBatch, hc, h.canonical hc]
  | error e =>
    right
    cases hc' : canonicalConditionalBatch shapes c' with
    | ok d =>
      rw [h.symm.canonical hc'] at hc
      cases hc
    | error e' =>
      refine ⟨e, e', ?_, ?_⟩
      · simp only [applyConditionalBatch, prepareBatch, hc, Except.mapError]
        rfl
      · simp only [applyConditionalBatch, prepareBatch, hc', Except.mapError]
        rfl

end

end Permuted

/-! ### Preconditions -/

/-- The row is as it is expected. -/
def ConditionalPrecondition.Holds (p : ConditionalPrecondition) (rows : Rows) : Prop :=
  if p.expectAbsent then rows.lookup p.key = none else rows.lookup p.key = some p.expectedValue

theorem faulty_eq_ok {f : Option String} : faulty f = .ok () ↔ f = none := by
  cases f with
  | none | some m => simp [faulty]

theorem checkPrecondition_eq_ok {p : ConditionalPrecondition} :
    checkPrecondition faults rows p = .ok () ↔ faults.get p.key = none ∧ p.Holds rows := by
  rw [checkPrecondition, check_bind_eq_ok, faulty_eq_ok, ConditionalPrecondition.Holds]
  refine Iff.rfl.and ?_
  cases rows.lookup p.key with
  | none => by_cases ha : p.expectAbsent = true <;> simp [ha]
  | some current =>
    by_cases ha : p.expectAbsent = true
    · simp [ha]
    · by_cases hv : current = p.expectedValue <;> simp [ha, hv]

theorem checkPreconditions_eq_ok {ps : List ConditionalPrecondition} :
    checkPreconditions faults rows ps = .ok () ↔
      ∀ p ∈ ps, faults.get p.key = none ∧ p.Holds rows := by
  induction ps with
  | nil => simp [checkPreconditions]
  | cons p ps ih => rw [checkPreconditions, check_bind_eq_ok, checkPrecondition_eq_ok, ih,
      forall_mem_cons]

/-! ### Queued changes -/

namespace Queued

/-- The change is about the row. -/
def Touches (k : List UInt8) : Queued → Prop
  | op o => o.key = k
  | deleteAll keys => k ∈ keys

variable {k : List UInt8} {qs : List Queued}

theorem lookup_apply_of_not {q : Queued} (h : ¬ q.Touches k) (rows : Rows) :
    (q.apply rows).lookup k = rows.lookup k := by
  cases q with
  | op o =>
    have hne : k ≠ o.key := fun heq => h heq.symm
    rw [apply]
    split_ifs
    · exact Finmap.lookup_erase_ne hne
    · exact Finmap.lookup_insert_of_ne _ hne
  | deleteAll keys =>
    have hk : k ∉ keys := h
    rw [apply, Finmap.lookup_filterKeys, if_pos hk]

/-- Changes that are not about a row leave it alone. -/
theorem lookup_foldl_of_not (h : ∀ q ∈ qs, ¬ q.Touches k) (rows : Rows) :
    (qs.foldl apply rows).lookup k = rows.lookup k := by
  induction qs generalizing rows with
  | nil => rfl
  | cons q qs ih =>
    rw [foldl_cons, ih (fun q' hq' => h q' (mem_cons_of_mem q hq'))]
    exact lookup_apply_of_not (h q (.head _)) rows

theorem lookup_apply_op (o : BatchOp) (rows : Rows) :
    ((op o).apply rows).lookup o.key = if o.delete then none else some o.value := by
  rw [apply]
  split_ifs
  · exact Finmap.lookup_erase _ _
  · exact Finmap.lookup_insert _

/-- An operation decides about its row, if nothing behind it is about the row. -/
theorem lookup_foldl_op {o : BatchOp} {ops : List BatchOp} (hnodup : (ops.map (·.key)).Nodup)
    (ho : o ∈ ops) (hqs : ∀ q ∈ qs, ¬ q.Touches o.key) (rows : Rows) :
    ((ops.map op ++ qs).foldl apply rows).lookup o.key =
      if o.delete then none else some o.value := by
  induction ops generalizing rows with
  | nil => simp at ho
  | cons o' ops ih =>
    obtain ⟨hnew, hnodup⟩ := nodup_cons.mp hnodup
    rw [map_cons, cons_append, foldl_cons]
    by_cases hmem : o ∈ ops
    · exact ih hnodup hmem _
    obtain rfl : o = o' := (mem_cons.mp ho).resolve_right hmem
    rw [lookup_foldl_of_not, lookup_apply_op]
    intro q hq
    rcases mem_append.mp hq with hq | hq
    · obtain ⟨o', ho', rfl⟩ := mem_map.mp hq
      intro heq
      exact hnew (mem_map.mpr ⟨o', ho', heq⟩)
    · exact hqs q hq

end Queued

variable {ops : List BatchOp} {rs : List ConditionalPrefixReplacement} {qs : List Queued}
  {keyPrefix k : List UInt8} {r : ConditionalPrefixReplacement}

theorem queueOps_eq_ok : queueOps faults ops = .ok () ↔ ∀ op ∈ ops, faults.queue op.key = none := by
  induction ops with
  | nil => simp [queueOps]
  | cons op ops ih => rw [queueOps, check_bind_eq_ok, faulty_eq_ok, ih, forall_mem_cons]

/-- What a replacement queues. -/
def replacing (rows : Rows) (r : ConditionalPrefixReplacement) : List Queued :=
  .deleteAll (scanned rows r.keyPrefix) :: r.sets.map fun s => .op { s with delete := false }

theorem queueReplacements_eq_ok : queueReplacements faults rows rs = .ok qs ↔
      (∀ r ∈ rs, faults.scan r.keyPrefix = none ∧ ∀ s ∈ r.sets, faults.queue s.key = none) ∧
        rs.flatMap (replacing rows) = qs := by
  induction rs generalizing qs with
  | nil => simp [queueReplacements]
  | cons r rs ih =>
    rw [queueReplacements, check_bind_eq_ok, check_bind_eq_ok, bind_eq_ok, faulty_eq_ok,
      queueOps_eq_ok, forall_mem_cons, flatMap_cons]
    constructor
    · rintro ⟨hscan, hops, rest, hrest, hqs⟩
      obtain ⟨hall, rfl⟩ := ih.mp hrest
      exact ⟨⟨⟨hscan, hops⟩, hall⟩, Except.ok.inj hqs⟩
    · rintro ⟨⟨⟨hscan, hops⟩, hall⟩, rfl⟩
      exact ⟨hscan, hops, _, ih.mpr ⟨hall, rfl⟩, rfl⟩

/-! ### Replaced prefixes -/

/-- A replacement that passes beside the mutations of its batch. -/
structure Replaces (mutations : List BatchOp) (r : ConditionalPrefixReplacement) : Prop where
  catalog : r.keyPrefix = prefixBackupCatalog
  count : r.sets.length ≤ maxConditionalReplacementSets
  sets : checkEach (validateSet r.keyPrefix) (fun s => rank s.key) (fun s => .duplicateSet s.key)
    none r.sets = .ok ()
  apart : ∀ op ∈ mutations, ¬ r.keyPrefix <+: op.key

theorem validateApart_eq_ok :
    validateApart keyPrefix ops = .ok () ↔ ∀ op ∈ ops, ¬ keyPrefix <+: op.key := by
  induction ops with
  | nil => simp [validateApart]
  | cons op ops ih => rw [validateApart, ite_error_eq_ok, ih, forall_mem_cons]

variable {mutations : List BatchOp}

/-- Only one prefix is allowed and none may come twice: there is at most one replacement. -/
theorem validateReplacements_eq_ok (h : validateReplacements mutations none rs = .ok ()) :
    rs = [] ∨ ∃ r, rs = [r] ∧ Replaces mutations r := by
  have hallowed : ∀ p, validateConditionalReplacementPrefix p = .ok () →
      p = prefixBackupCatalog := by
    intro p hp
    by_contra hne
    simp [validateConditionalReplacementPrefix, hne] at hp
  cases rs with
  | nil => exact .inl rfl
  | cons r rs =>
    rw [validateReplacements, check_bind_eq_ok, ite_error_eq_ok, check_bind_eq_ok,
      check_bind_eq_ok, check_bind_eq_ok, validateApart_eq_ok, Nat.not_lt] at h
    obtain ⟨hnamespace, hcount, -, hsets, hapart, hrest⟩ := h
    have hcatalog := hallowed _ hnamespace
    refine .inr ⟨r, ?_, hcatalog, hcount, hsets, hapart⟩
    cases rs with
    | nil => rfl
    | cons r' rs =>
      rw [validateReplacements, check_bind_eq_ok, ite_error_eq_ok, check_bind_eq_ok] at hrest
      obtain ⟨hnamespace', -, hoverlap, -⟩ := hrest
      rw [validateOverlap, hallowed _ hnamespace', hcatalog, if_pos (prefix_refl _)] at hoverlap
      cases hoverlap

theorem validateSet_eq_ok {set : BatchOp} (h : validateSet keyPrefix set = .ok ()) :
    set.delete = false ∧ set.key.length ≤ maxConditionalKeyBytes ∧ keyPrefix <+: set.key ∧
      set.value.length ≤ maxConditionalValueBytes := by
  rw [validateSet, ite_error_eq_ok, check_bind_eq_ok, ite_error_eq_ok, ite_error_eq_ok,
    validateConditionalKey, ite_error_eq_ok, ite_error_eq_ok] at h
  obtain ⟨hdelete, ⟨-, hkey, -⟩, hunder, hvalue, -⟩ := h
  refine ⟨by simpa using hdelete, by omega, ?_, by omega⟩
  by_contra hnot
  exact hunder (.inl hnot)

/-- The scan finds the rows under the prefix. -/
theorem mem_scanned :
    k ∈ scanned rows prefixBackupCatalog ↔ k ∈ rows.keys ∧ prefixBackupCatalog <+: k := by
  have hrange := inRange_upperBound (ascii "backup/catalog") 47 (by decide) k
  have hfront : ascii "backup/catalog" ++ [47] = prefixBackupCatalog := rfl
  rw [hfront] at hrange
  rw [scanned, Finset.mem_filter, hrange]

/-! ### The rows after a batch -/

/--
The rows a batch leaves: its mutations are made, the rows of its replacements are in
place of all others under their prefixes, and every other row is as it was.
-/
structure Applied (c : ConditionalBatch) (rows rows' : Rows) : Prop where
  mutated : ∀ op ∈ c.mutations,
    rows'.lookup op.key = if op.delete then none else some op.value
  installed : ∀ r ∈ c.prefixReplacements, ∀ s ∈ r.sets, rows'.lookup s.key = some s.value
  dropped : ∀ r ∈ c.prefixReplacements, ∀ k, r.keyPrefix <+: k → (∀ s ∈ r.sets, s.key ≠ k) →
    rows'.lookup k = none
  kept : ∀ k, (∀ op ∈ c.mutations, op.key ≠ k) →
    (∀ r ∈ c.prefixReplacements, ¬ r.keyPrefix <+: k) → rows'.lookup k = rows.lookup k

/-- The order of a batch does not matter for what it leaves. -/
theorem Applied.of_sorted {rows' : Rows} (h : Applied c.sorted rows rows') :
    Applied c rows rows' := by
  have hrepl : ∀ r ∈ c.prefixReplacements,
      ConditionalBatch.sortSets r ∈ c.sorted.prefixReplacements := by
    intro r hr
    exact mem_map_of_mem (mem_sortBy.mpr hr)
  refine ⟨?_, ?_, ?_, ?_⟩
  · intro op hop
    exact h.mutated op (mem_sortBy.mpr hop)
  · intro r hr s hs
    exact h.installed _ (hrepl r hr) s (mem_sortBy.mpr hs)
  · intro r hr k hk hfree
    exact h.dropped _ (hrepl r hr) k hk fun s hs => hfree s (mem_sortBy.mp hs)
  intro k hops hrs
  refine h.kept k ?_ ?_
  · intro op hop
    exact hops op (mem_sortBy.mp hop)
  · intro r hr
    obtain ⟨r', hr', rfl⟩ := mem_map.mp hr
    exact hrs r' (mem_sortBy.mp hr')

theorem nodup_keys {α : Type} {key : α → List UInt8} {as : List α}
    (h : (as.map fun a => rank (key a)).Nodup) : (as.map key).Nodup := by
  refine .of_map rank ?_
  rw [map_map]
  exact h

/-- A replacement is about the rows under its prefix only. -/
theorem Replaces.under (hr : Replaces mutations r) {q : Queued} (hq : q ∈ replacing rows r)
    (htouches : q.Touches k) : r.keyPrefix <+: k := by
  rcases mem_cons.mp hq with rfl | hq
  · rw [hr.catalog] at htouches ⊢
    exact (mem_scanned.mp htouches).2
  · obtain ⟨s, hs, rfl⟩ := mem_map.mp hq
    have hkey : s.key = k := htouches
    rw [← hkey]
    exact (validateSet_eq_ok (check_of_checkEach hr.sets s hs)).2.2.1

/-- After a replacement the rows under its prefix are its sets. -/
theorem Replaces.lookup (hr : Replaces mutations r)
    (hsorted : r.sets.Pairwise fun a b => rank a.key ≤ rank b.key) {rows1 : Rows}
    (hsame : ∀ k, r.keyPrefix <+: k → rows1.lookup k = rows.lookup k) :
    (∀ s ∈ r.sets, ((replacing rows r).foldl Queued.apply rows1).lookup s.key = some s.value) ∧
      ∀ k, r.keyPrefix <+: k → (∀ s ∈ r.sets, s.key ≠ k) →
        ((replacing rows r).foldl Queued.apply rows1).lookup k = none := by
  let sets := r.sets.map fun s => { s with delete := false }
  have hqueue : replacing rows r =
      .deleteAll (scanned rows r.keyPrefix) :: (sets.map Queued.op ++ []) := by
    simp [replacing, sets, Function.comp_def]
  have hnodup : (sets.map (·.key)).Nodup := by
    have hlt := pairwise_lt_of_checkEach hsorted hr.sets
    have hkeys := nodup_keys (nodup_of_pairwise_lt hlt)
    simpa [sets, Function.comp_def] using hkeys
  rw [hqueue, foldl_cons]
  constructor
  · intro s hs
    have hmem : { s with delete := false } ∈ sets := mem_map.mpr ⟨s, hs, rfl⟩
    exact Queued.lookup_foldl_op hnodup hmem (by simp) _
  intro k hk hfree
  rw [Queued.lookup_foldl_of_not]
  · rw [Queued.apply, Finmap.lookup_filterKeys, hsame k hk]
    by_cases hkey : k ∈ rows.keys
    · have hscan : k ∈ scanned rows r.keyPrefix := by
        rw [hr.catalog] at hk ⊢
        exact mem_scanned.mpr ⟨hkey, hk⟩
      exact if_neg fun hnot => hnot hscan
    · rw [Finmap.lookup_eq_none.mpr hkey]
      exact ite_self none
  · intro q hq
    rw [append_nil] at hq
    obtain ⟨s', hs', rfl⟩ := mem_map.mp hq
    obtain ⟨s, hs, rfl⟩ := mem_map.mp hs'
    exact hfree s hs

/-- **A valid batch in order** leaves the rows it says. -/
theorem applied_of_valid (hvalid : Valid shapes c)
    (hmut : c.mutations.Pairwise fun a b => rank a.key ≤ rank b.key)
    (hsets : ∀ r ∈ c.prefixReplacements, r.sets.Pairwise fun a b => rank a.key ≤ rank b.key) :
    Applied c rows ((c.mutations.map Queued.op ++
      c.prefixReplacements.flatMap (replacing rows)).foldl Queued.apply rows) := by
  have hnodup := nodup_keys (nodup_of_pairwise_lt (pairwise_lt_of_checkEach hmut hvalid.mutations))
  have hop : ∀ k, (∀ op ∈ c.mutations, op.key ≠ k) →
      ∀ q ∈ c.mutations.map Queued.op, ¬ q.Touches k := by
    intro k hk q hq
    obtain ⟨op, hop, rfl⟩ := mem_map.mp hq
    exact hk op hop
  rcases validateReplacements_eq_ok hvalid.replacements with hnone | ⟨r, hone, hr⟩
  · rw [hnone, flatMap_nil]
    refine ⟨?_, by simp [hnone], by simp [hnone], ?_⟩
    · intro op hmem
      exact Queued.lookup_foldl_op hnodup hmem (by simp) rows
    · intro k hk _
      rw [append_nil]
      exact Queued.lookup_foldl_of_not (hop k hk) rows
  · rw [hone, flatMap_singleton]
    -- Mutations are not about rows under the prefix, so the replacement finds these as they were.
    have hsame : ∀ k, r.keyPrefix <+: k →
        ((c.mutations.map Queued.op).foldl Queued.apply rows).lookup k = rows.lookup k := by
      intro k hk
      refine Queued.lookup_foldl_of_not (hop k ?_) rows
      intro op hmem heq
      exact hr.apart op hmem (heq ▸ hk)
    have hreplaced := hr.lookup (hsets r (by simp [hone])) hsame
    refine ⟨?_, ?_, ?_, ?_⟩
    · intro op hmem
      refine Queued.lookup_foldl_op hnodup hmem ?_ rows
      intro q hq htouches
      exact hr.apart op hmem (hr.under hq htouches)
    · intro r' hr' s hs
      obtain rfl : r' = r := by simpa [hone] using hr'
      rw [foldl_append]
      exact hreplaced.1 s hs
    · intro r' hr' k hk hfree
      obtain rfl : r' = r := by simpa [hone] using hr'
      rw [foldl_append]
      exact hreplaced.2 k hk hfree
    intro k hk hnamespace
    refine Queued.lookup_foldl_of_not ?_ rows
    intro q hq htouches
    rcases mem_append.mp hq with hq | hq
    · exact hop k hk q hq htouches
    · exact hnamespace r (by simp [hone]) (hr.under hq htouches)

/-! ### Atomicity -/

/-- A batch that gets to its commit. -/
theorem prepareBatch_eq_ok : prepareBatch shapes faults rows c = .ok qs ↔
      ∃ d, canonicalConditionalBatch shapes c = .ok d ∧
        (∀ p ∈ d.preconditions, faults.get p.key = none ∧ p.Holds rows) ∧
        (∀ op ∈ d.mutations, faults.queue op.key = none) ∧ (∀ r ∈ d.prefixReplacements,
          faults.scan r.keyPrefix = none ∧ ∀ s ∈ r.sets, faults.queue s.key = none) ∧
        faults.beforeCommit = none ∧ faults.commit = none ∧
        d.mutations.map Queued.op ++ d.prefixReplacements.flatMap (replacing rows) = qs := by
  rw [prepareBatch, bind_eq_ok]
  refine exists_congr fun d => ?_
  rw [mapError_eq_ok, check_bind_eq_ok, checkPreconditions_eq_ok, check_bind_eq_ok,
    queueOps_eq_ok, bind_eq_ok]
  refine Iff.rfl.and (Iff.rfl.and (Iff.rfl.and ?_))
  constructor
  · rintro ⟨replaced, hreplaced, hcommit⟩
    obtain ⟨hscan, rfl⟩ := queueReplacements_eq_ok.mp hreplaced
    rw [check_bind_eq_ok, check_bind_eq_ok, faulty_eq_ok, faulty_eq_ok] at hcommit
    exact ⟨hscan, hcommit.1, hcommit.2.1, Except.ok.inj hcommit.2.2⟩
  · rintro ⟨hscan, hbefore, hcommit, rfl⟩
    refine ⟨_, queueReplacements_eq_ok.mpr ⟨hscan, rfl⟩, ?_⟩
    rw [check_bind_eq_ok, check_bind_eq_ok, faulty_eq_ok, faulty_eq_ok]
    exact ⟨hbefore, hcommit, rfl⟩

theorem applyConditionalBatch_of_error {e : ApplyErr}
    (h : (applyConditionalBatch shapes faults rows c).1 = .error e) :
    (applyConditionalBatch shapes faults rows c).2 = rows := by
  unfold applyConditionalBatch at h ⊢
  cases hprep : prepareBatch shapes faults rows c with
  | error e' => rfl
  | ok qs =>
    rw [hprep] at h
    cases h

/-- A batch that was applied: it has a canonical form, its preconditions held, it is applied. -/
theorem applyConditionalBatch_of_ok (h : (applyConditionalBatch shapes faults rows c).1 = .ok ()) :
    (∃ d, canonicalConditionalBatch shapes c = .ok d) ∧ (∀ p ∈ c.preconditions, p.Holds rows) ∧
      Applied c rows (applyConditionalBatch shapes faults rows c).2 := by
  unfold applyConditionalBatch at h ⊢
  cases hprep : prepareBatch shapes faults rows c with
  | error e =>
    rw [hprep] at h
    cases h
  | ok qs =>
    obtain ⟨d, hd, hpre, -, -, -, -, rfl⟩ := prepareBatch_eq_ok.mp hprep
    obtain ⟨-, -, -, -, hvalid, rfl⟩ := canonicalConditionalBatch_eq_ok.mp hd
    refine ⟨⟨_, hd⟩, ?_, ?_⟩
    · intro p hp
      exact (hpre p (mem_sortBy.mpr hp)).2
    · refine .of_sorted (applied_of_valid (validateConditionalBatch_eq_ok.mp hvalid)
        (sortBy_pairwise _ _) ?_)
      intro r hr
      obtain ⟨r', -, rfl⟩ := mem_map.mp hr
      exact sortBy_pairwise _ r'.sets

/-- With a canonical form, preconditions that hold and no fault a batch is applied. -/
theorem applyConditionalBatch_succeeds (hc : canonicalConditionalBatch shapes c = .ok d)
    (hpre : ∀ p ∈ c.preconditions, p.Holds rows) :
    (applyConditionalBatch shapes Faults.none rows c).1 = .ok () := by
  obtain ⟨-, -, -, -, -, hd⟩ := canonicalConditionalBatch_eq_ok.mp hc
  have hpre' : ∀ p ∈ d.preconditions, Faults.none.get p.key = none ∧ p.Holds rows := by
    intro p hp
    rw [← hd] at hp
    exact ⟨rfl, hpre p (mem_sortBy.mp hp)⟩
  have hprep := prepareBatch_eq_ok.mpr ⟨d, hc, hpre', fun _ _ => rfl,
    fun _ _ => ⟨rfl, fun _ _ => rfl⟩, rfl, rfl, rfl⟩
  rw [applyConditionalBatch, hprep]

/--
**Atomicity.**  A batch that is not applied leaves the rows as they are, one whose
preconditions do not all hold is not applied, and one that is applied leaves exactly the
rows it says.  A batch with the same preconditions and mutations in another order does
the same; only the error it is refused with may differ.
-/
theorem conditional_batch_atomic (shapes : Shapes) (faults : Faults) (rows : Rows)
    (c : ConditionalBatch) : (∀ e, (applyConditionalBatch shapes faults rows c).1 = .error e →
      (applyConditionalBatch shapes faults rows c).2 = rows) ∧
    ((∃ p ∈ c.preconditions, ¬ p.Holds rows) →
      (applyConditionalBatch shapes faults rows c).2 = rows) ∧
    ((applyConditionalBatch shapes faults rows c).1 = .ok () →
      Applied c rows (applyConditionalBatch shapes faults rows c).2) ∧
    (∀ d, canonicalConditionalBatch shapes c = .ok d → (∀ p ∈ c.preconditions, p.Holds rows) →
      (applyConditionalBatch shapes Faults.none rows c).1 = .ok ()) ∧ ∀ c', Permuted c c' →
      applyConditionalBatch shapes faults rows c' = applyConditionalBatch shapes faults rows c ∨
        ∃ e e', applyConditionalBatch shapes faults rows c = (.error (.refused e), rows) ∧
          applyConditionalBatch shapes faults rows c' = (.error (.refused e'), rows) := by
  refine ⟨fun e h => applyConditionalBatch_of_error h, ?_,
    fun h => (applyConditionalBatch_of_ok h).2.2,
    fun d hd hpre => applyConditionalBatch_succeeds hd hpre, fun c' h => h.applied⟩
  rintro ⟨p, hp, hfails⟩
  cases hanswer : (applyConditionalBatch shapes faults rows c).1 with
  | error e => exact applyConditionalBatch_of_error hanswer
  | ok u => exact absurd ((applyConditionalBatch_of_ok hanswer).2.1 p hp) hfails

/-- Every shape passes. -/
def anyShape : Shapes where
  backupTask _ := .ok ()
  backupCatalog _ := .ok ()
  legacyCreate _ := .ok ()
  legacyPurge _ := .ok ()
  allocation _ := .ok ()
  metadataUpdate _ := .ok ()
  fencedCreate _ := .ok ()
  fencedPurge _ := .ok ()

/-- A catalogue of one backup replaces the old one, if the state is as expected. -/
def sampleBatch : ConditionalBatch where
  version := conditionalBatchVersion
  expectedRaftTerm := 0
  preconditions := [⟨ascii "backup/catalog-state", [7], false⟩]
  mutations := [⟨false, ascii "backup/catalog-state", [8]⟩]
  prefixReplacements := [⟨prefixBackupCatalog, [⟨false, ascii "backup/catalog/a", [1]⟩]⟩]

/-- The rows of a catalogue of another backup. -/
def sampleRows : Rows :=
  ((∅ : Rows).insert (ascii "backup/catalog-state") [7]).insert (ascii "backup/catalog/b") [2]

theorem conditional_batch_atomic_catalog :
    (applyConditionalBatch anyShape Faults.none sampleRows sampleBatch).1 = .ok () ∧
      (applyConditionalBatch anyShape Faults.none sampleRows sampleBatch).2.lookup
        (ascii "backup/catalog/b") = none := by
  have hok : (applyConditionalBatch anyShape Faults.none sampleRows sampleBatch).1 = .ok () := by
    decide +kernel
  have happlied := (conditional_batch_atomic anyShape Faults.none sampleRows sampleBatch).2.2.1 hok
  refine ⟨hok, happlied.dropped _ (.head _) _ ?_ ?_⟩
  · decide +kernel
  · decide +kernel

/-- A row under a replaced prefix is there after the batch: the replacement sets it. -/
theorem replacement_installs_row :
    (applyConditionalBatch anyShape Faults.none sampleRows sampleBatch).1 = .ok () ∧
      prefixBackupCatalog <+: ascii "backup/catalog/a" ∧
      (applyConditionalBatch anyShape Faults.none sampleRows sampleBatch).2.lookup
        (ascii "backup/catalog/a") = some [1] := by
  decide +kernel

end Nufs.Metadata.Pebble
