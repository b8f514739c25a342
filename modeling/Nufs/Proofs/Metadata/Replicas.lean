/-
Replicas of the metadata service.

Whatever an operation proposes is in the log, and a follower does the same with it.  The
pages of an old extent root are deleted on the leader alone: replicas agree in every run
in which an old root has no page left to delete.
-/
import Nufs.Metadata.Calls
import Nufs.Proofs.Metadata.Replay
import Nufs.Lib.Guarded

namespace Nufs.Metadata

open List Op

variable {cfg : Config} {α β : Type}

variable {l l' : Leader} {id : InodeID} {rows' : Rows Value}

variable {m m' : Op α} {f : α → Op β} {old : InodeMetaV2}

theorem Op.bind_ok {a : α} (h : m l = (.ok a, l')) : (m >>= f) l = f a l' := by
  show Op.next m f l = f a l'
  unfold Op.next
  rw [h]

theorem Op.bind_error {e : ServiceErr} (h : m l = (.error e, l')) :
    (m >>= f) l = (.error e, l') := by
  show Op.next m f l = (.error e, l')
  unfold Op.next
  rw [h]

/-- What an operation leaves, by what its first part leaves. -/
theorem Op.bind_rest {R Q : Leader → Prop} (h : R (m l).2) (hfail : ∀ l', R l' → Q l')
    (hrest : ∀ a l', R l' → Q (f a l').2) : Q ((m >>= f) l).2 := by
  rcases hml : m l with ⟨e | a, l'⟩
  · rw [hml] at h
    rw [bind_error hml]
    exact hfail l' h
  · rw [hml] at h
    rw [bind_ok hml]
    exact hrest a l' h

/-! ### Operations that go through the log -/

/-- The second leader came from the first one by entries of the log. -/
def Follows (cfg : Config) (l l' : Leader) : Prop :=
  ∃ es, l'.log = l.log ++ es ∧ l'.rows = Fsm.applyLog cfg.codec es l.rows

theorem Follows.refl (l : Leader) : Follows cfg l l := ⟨[], (append_nil _).symm, rfl⟩

theorem Follows.trans {l'' : Leader} (h : Follows cfg l l') (h' : Follows cfg l' l'') :
    Follows cfg l l'' := by
  obtain ⟨es, hlog, hrows⟩ := h
  obtain ⟨es', hlog', hrows'⟩ := h'
  refine ⟨es ++ es', ?_, ?_⟩
  · rw [hlog', hlog, append_assoc]
  · rw [hrows', hrows]
    exact foldl_append.symm

/-- An operation that changes rows through the log only. -/
def Logged (cfg : Config) (m : Op α) : Prop := ∀ l, Follows cfg l (m l).2

theorem Logged.pure (a : α) : Logged cfg (pure a : Op α) := fun l => Follows.refl l

theorem Logged.fail (e : ServiceErr) : Logged cfg (Op.fail e : Op α) := fun l => Follows.refl l

theorem Logged.rows : Logged cfg Op.rows := fun l => Follows.refl l

theorem Logged.lift (r : Except ServiceErr α) : Logged cfg (Op.lift r) := by
  cases r with
  | ok a => exact .pure a
  | error e => exact .fail e

theorem Logged.bind (hm : Logged cfg m) (hf : ∀ a, Logged cfg (f a)) : Logged cfg (m >>= f) :=
  fun l => bind_rest (hm l) (fun _ h => h) fun a l' h => h.trans (hf a l')

theorem Logged.attempt (hm : Logged cfg m) : Logged cfg m.attempt := hm

theorem Logged.ite {p : Prop} [Decidable p] (hm : Logged cfg m) (hm' : Logged cfg m') :
    Logged cfg (if p then m else m') := by
  split_ifs
  · exact hm
  · exact hm'

namespace Logged

theorem logged (entry : RaftLogEntry Value) : Logged cfg (logged cfg entry) :=
  fun l => ⟨[⟨l.term, some entry⟩], rfl, rfl⟩

theorem propose (entry : RaftLogEntry Value) : Logged cfg (propose cfg entry) := by
  cases entry with
  | conditional c => exact .ite (.logged _) (.fail _)
  | _ => exact .logged _

theorem put (key : Key) (value : Value) : Logged cfg (Op.put cfg key value) := .propose _

theorem deleteKey (key : Key) : Logged cfg (deleteKey cfg key) := Logged.propose _

theorem applyBatch (ops : List (BatchOp Value)) : Logged cfg (applyBatch cfg ops) :=
  .ite (.pure _) (.propose _)

theorem applyConditional (c : ConditionalBatch Value) (e : ServiceErr) :
    Logged cfg (applyConditional cfg c e) := by
  refine .bind (.attempt (.propose _)) fun r => ?_
  split
  · exact .fail _
  · exact .lift _

/-! ### The namespace -/

theorem nextInodeID (mint : Mint) : Logged cfg (nextInodeID cfg mint) := by
  refine .ite ?_ (.pure _)
  exact .bind (.attempt (.deleteKey _)) fun _ => .pure _

variable (parent : InodeID) (name : List Char) (full : Bool) (now : Int)

theorem releaseInodeID (id : InodeID) : Logged cfg (releaseInodeID cfg full id) := by
  refine .ite ?_ (.pure _)
  exact .bind (.attempt (.put _ _)) fun _ => .pure _

theorem applyNamespaceCreate (mint retry : Mint)
    (batch : Rows Value → InodeID → ConditionalBatch Value) :
    Logged cfg (applyNamespaceCreate cfg mint retry batch) := by
  refine .bind (.nextInodeID mint) fun id => .bind .rows fun rows => ?_
  refine .bind (.attempt (.applyConditional _ _)) fun r => ?_
  split
  · exact .pure _
  · refine .bind (.nextInodeID retry) fun id' => .bind .rows fun rows' => ?_
    exact .bind (.applyConditional _ _) fun _ => .pure _
  · exact .fail _

theorem createFile (mint retry : Mint) :
    Logged cfg (createFile cfg parent name now mint retry) := by
  refine .ite (.fail _) (.bind .rows fun rows => ?_)
  exact .applyNamespaceCreate _ _ _

theorem symlink (target : List Char) (now : Int) (mint retry : Mint) :
    Logged cfg (symlink cfg parent name target now mint retry) :=
  .bind .rows fun _ => .applyNamespaceCreate _ _ _

theorem mkDir (mint retry : Mint) : Logged cfg (mkDir cfg parent name now mint retry) :=
  .ite (.fail _) (.applyNamespaceCreate _ _ _)

theorem unlink : Logged cfg (Op.unlink cfg parent name full) := by
  refine .bind .rows fun rows => .bind (.lift _) fun r => ?_
  refine .bind (.applyConditional _ _) fun _ => ?_
  split
  · exact .pure _
  · exact .releaseInodeID _ _

theorem rmDir : Logged cfg (rmDir cfg parent name full) := by
  refine .bind .rows fun rows => .bind (.lift _) fun r => ?_
  exact .bind (.applyConditional _ _) fun _ => .releaseInodeID _ _

theorem link (target : InodeID) (now : Int) : Logged cfg (Op.link cfg parent name target now) :=
  .bind .rows fun _ => .bind (.lift _) fun _ => .applyConditional _ _

theorem clearDestination (newParent : InodeID) (newName : List Char) (full : Bool) :
    Logged cfg (clearDestination cfg newParent newName full) := by
  refine .bind .rows fun rows => ?_
  split
  · exact .ite (.fail _) (.unlink _ _ _)
  · exact .pure _

theorem rename (oldParent : InodeID) (oldName : List Char) (newParent : InodeID)
    (newName : List Char) (full : Bool) :
    Logged cfg (Op.rename cfg oldParent oldName newParent newName full) := by
  refine .bind .rows fun rows => .bind (.lift _) fun found => ?_
  split
  · exact .fail _
  · refine .bind (.clearDestination _ _ _) fun _ => .bind .rows fun rows => ?_
    exact .ite (.fail _) (.applyBatch _)

theorem updateInode (m : InodeMeta) : Logged cfg (updateInode cfg now m) :=
  .bind .rows fun _ => .bind (.lift _) fun _ => .applyBatch _

/-! ### Chunks -/

theorem allocateChunks (id : InodeID) (offsets : List Int) (replicas : Nat)
    (attempts : List (List ChunkID)) :
    Logged cfg (allocateChunks cfg id offsets replicas attempts) := by
  induction attempts with
  | nil => exact .fail _
  | cons ids attempts ih =>
    refine .ite (.fail _) (.bind .rows fun rows => ?_)
    refine .bind (.lift _) fun found => ?_
    split
    · exact .fail _
    · refine .ite (.fail _) (.bind (.lift _) fun batch => ?_)
      refine .bind (.attempt (.applyConditional _ _)) fun r => ?_
      split
      · exact ih
      · exact .lift _

theorem updateLiveChunk (old new : ChunkMeta) : Logged cfg (updateLiveChunk cfg old new) :=
  .ite (.fail _) (.applyConditional _ _)

theorem getChunk (id : ChunkID) : Logged cfg (getChunk id) := by
  refine .bind .rows fun rows => .bind (.lift _) fun found => ?_
  split
  · exact .fail _
  · exact .pure _

theorem commitChunk (id : ChunkID) : Logged cfg (commitChunk cfg id) :=
  .bind (.getChunk id) fun _ => .ite (.updateLiveChunk _ _) (.fail _)

theorem updateChunk (chunk : ChunkMeta) : Logged cfg (updateChunk cfg chunk) :=
  .bind (.getChunk _) fun _ => .updateLiveChunk _ _

theorem sealChunk (id : ChunkID) : Logged cfg (sealChunk cfg id) := by
  refine .bind (.getChunk id) fun chunk => ?_
  split
  · exact .pure _
  · exact .updateLiveChunk _ _
  · exact .fail _

theorem deleteChunk (id : ChunkID) : Logged cfg (deleteChunk cfg id) := by
  refine .bind .rows fun rows => .bind (.lift _) fun referenced => ?_
  split
  · exact .ite (.fail _) (.pure _)
  refine .ite (.pure _) (.bind (.lift _) fun found => ?_)
  split
  · exact .pure _
  · refine .ite (.fail _) (.bind (.attempt (.applyConditional _ _)) fun r => ?_)
    split
    · exact .bind .rows fun _ => .ite (.pure _) (.fail _)
    · exact .lift _

theorem purgeChunk (id : ChunkID) (catalog : Value) :
    Logged cfg (purgeChunk cfg id catalog) := by
  refine .bind .rows fun rows => .bind (.lift _) fun referenced => ?_
  refine .ite (.fail _) ?_
  split
  · exact .pure _
  · exact .applyConditional _ _
  · exact .fail _

end Logged

/-! ### Rows that operations leave alone -/

/-- The operation does not change the rows under some keys. -/
def Keeps (P : Key → Prop) (m : Op α) : Prop :=
  ∀ l k, P k → (m l).2.rows.lookup k = l.rows.lookup k

variable {P : Key → Prop}

theorem Keeps.pure (a : α) : Keeps P (pure a : Op α) := fun _ _ _ => rfl

theorem Keeps.rows : Keeps P Op.rows := fun _ _ _ => rfl

theorem Keeps.bind (hm : Keeps P m) (hf : ∀ a, Keeps P (f a)) : Keeps P (m >>= f) := by
  intro l k hk
  refine bind_rest (R := fun l' => l'.rows.lookup k = l.rows.lookup k) (hm l k hk)
    (fun _ h => h) fun a l' h => ?_
  exact (hf a l' k hk).trans h

theorem Keeps.ite {p : Prop} [Decidable p] (hm : Keeps P m) (hm' : Keeps P m') :
    Keeps P (if p then m else m') := by
  split_ifs
  · exact hm
  · exact hm'

theorem Keeps.logged {entry : RaftLogEntry Value}
    (h : ∀ term k, P k → Fsm.writes ⟨term, some entry⟩ k = none) : Keeps P (logged cfg entry) :=
  fun l k hk => Fsm.lookup_apply_of_not_writes cfg.codec (h l.term k hk)

theorem Keeps.put {key : Key} (value : Value) (h : ¬ P key) : Keeps P (Op.put cfg key value) := by
  refine .logged fun term k hk => ?_
  refine patchOf_ops k [.set key value] fun op hop heq => ?_
  obtain rfl := mem_singleton.mp hop
  obtain rfl : key = k := heq
  exact h hk

theorem Keeps.applyBatch {ops : List (BatchOp Value)} (h : ∀ op ∈ ops, ¬ P op.key) :
    Keeps P (applyBatch cfg ops) := by
  refine .ite (.pure _) (.logged fun term k hk => ?_)
  exact patchOf_ops k ops fun op hop heq => h op hop (heq ▸ hk)

/-! ### Old roots -/

/-- A leader that came through the log, with the rows under some keys as they were. -/
structure Reaches (cfg : Config) (P : Key → Prop) (l l' : Leader) : Prop where
  follows : Follows cfg l l'
  keeps : ∀ k, P k → l'.rows.lookup k = l.rows.lookup k

theorem Reaches.refl (l : Leader) : Reaches cfg P l l := ⟨Follows.refl l, fun _ _ => rfl⟩

theorem Reaches.step (h : Reaches cfg P l l') (hm : Logged cfg m) (hkeeps : Keeps P m) :
    Reaches cfg P l (m l').2 :=
  ⟨h.follows.trans (hm l'), fun k hk => (hkeeps l' k hk).trans (h.keeps k hk)⟩

/-- One part of an operation goes through the log, and then the rest does. -/
theorem Reaches.bind (h : Reaches cfg P l l') (hm : Logged cfg m) (hkeeps : Keeps P m)
    (hf : ∀ a l'', Reaches cfg P l l'' → Follows cfg l (f a l'').2) :
    Follows cfg l ((m >>= f) l').2 :=
  bind_rest (h.step hm hkeeps) (fun _ h => h.follows) hf

/-- A page of an inode under a root. -/
def IsPage (id : InodeID) (root : Nat) (k : Key) : Prop := ∃ p, k = .extentPage id root p

/-- No page of the row's root is there. -/
def OldRootEmpty (rows : Rows Value) (id : InodeID) (old : InodeMetaV2) : Prop :=
  old.extentRoot ≠ 0 →
    ∀ p < old.extentPageCount, rows.lookup (.extentPage id old.extentRoot p) = none

theorem erase_of_lookup {rows : Rows Value} {k : Key} (h : rows.lookup k = none) :
    rows.erase k = rows := by
  refine Finmap.ext_lookup fun k' => ?_
  by_cases hk : k' = k
  · rw [hk, Finmap.lookup_erase, h]
  · exact Finmap.lookup_erase_ne hk

theorem deleteRoot_of_empty {root count : Nat}
    (h : ∀ p < count, l.rows.lookup (.extentPage id root p) = none) :
    deleteRoot id root count l = (.ok (), l) := by
  induction count with
  | zero => rfl
  | succ count ih =>
    have hbefore := ih fun p hp => h p (Nat.lt_succ_of_lt hp)
    show (deleteRoot id root count >>= fun _ =>
      deleteLocal (.extentPage id root count)) l = _
    rw [bind_ok hbefore]
    show ((.ok (), { l with rows := l.rows.erase (.extentPage id root count) }) :
      Except ServiceErr Unit × Leader) = (.ok (), l)
    rw [erase_of_lookup (h count (Nat.lt_succ_self count))]

theorem Reaches.drop (h : Reaches cfg (IsPage id old.extentRoot) l l')
    (hempty : OldRootEmpty l.rows id old) : Follows cfg l (dropOldRoot old id l').2 := by
  unfold dropOldRoot
  split_ifs with hroot
  · rw [deleteRoot_of_empty]
    · exact h.follows
    · intro p hp
      rw [h.keeps _ ⟨p, rfl⟩]
      exact hempty hroot p hp
  · exact h.follows

/-! ### Extents -/

theorem nextRoot_ne (root : Nat) : nextRoot root ≠ root := by
  unfold nextRoot
  omega

theorem not_isPage_nextRoot (id id' : InodeID) (root p : Nat) :
    ¬ IsPage id root (.extentPage id' (nextRoot root) p) := by
  rintro ⟨p', h⟩
  injection h with _ hroot _
  exact nextRoot_ne root hroot

theorem Logged.writePage (id : InodeID) (root p : Nat) (extents : List ExtentRef) :
    Logged cfg (writePage cfg id root p extents) := .put _ _

theorem Keeps.writePage (id : InodeID) (root p : Nat) (extents : List ExtentRef) :
    Keeps (IsPage id root) (writePage cfg id (nextRoot root) p extents) :=
  Keeps.put _ (not_isPage_nextRoot id id root p)

theorem Logged.writePages (id : InodeID) (root : Nat) (writes : List ExtentWrite) (count : Nat) :
    Logged cfg (writePages cfg id root writes count) := by
  induction count with
  | zero => exact .pure _
  | succ count ih => exact ih.bind fun _ => .writePage _ _ _ _

theorem Keeps.writePages (id : InodeID) (root : Nat) (writes : List ExtentWrite) (count : Nat) :
    Keeps (IsPage id root) (writePages cfg id (nextRoot root) writes count) := by
  induction count with
  | zero => exact .pure _
  | succ count ih => exact ih.bind fun _ => .writePage _ _ _ _

theorem Logged.putWithBucketStats (m : InodeMetaV2) (oldSize : Int) :
    Logged cfg (putWithBucketStats cfg m oldSize) :=
  .ite (.put _ _) (.bind .rows fun _ => .applyBatch _)

theorem not_isPage_inode (id id' : InodeID) (root : Nat) : ¬ IsPage id root (.inode id') :=
  fun h => nomatch h

theorem Keeps.putWithBucketStats (id : InodeID) (root : Nat) (m : InodeMetaV2) (oldSize : Int) :
    Keeps (IsPage id root) (putWithBucketStats cfg m oldSize) := by
  refine .ite (.put _ (not_isPage_inode _ _ _)) (.bind .rows fun rows => ?_)
  refine .applyBatch fun op hop hpage => ?_
  obtain ⟨p, hp⟩ := hpage
  rcases mem_append.mp hop with hstats | hrow
  · unfold Rows.bucketStatsOp at hstats
    split at hstats
    · exact absurd hstats not_mem_nil
    · obtain rfl := mem_singleton.mp hstats
      cases hp
  · obtain rfl := mem_singleton.mp hrow
    cases hp

theorem Logged.getV2 (id : InodeID) : Logged cfg (getV2 id) := by
  refine .bind .rows fun rows => .bind (.lift _) fun found => ?_
  cases found with
  | none => exact .fail _
  | some row => exact .pure _

theorem getV2_cases (id : InodeID) (l : Leader) : (∃ e, getV2 id l = (.error e, l)) ∨
      ∃ row, l.rows.inode id = .ok (some row) ∧ getV2 id l = (.ok row.asV2, l) := by
  have hrows : getV2 id l = (Op.lift (l.rows.inode id) >>= asV2) l := rfl
  rw [hrows]
  cases h : l.rows.inode id with
  | error e => exact .inl ⟨e, rfl⟩
  | ok found =>
    cases found with
    | none => exact .inl ⟨.inodeNotFound, rfl⟩
    | some row => exact .inr ⟨row, rfl, rfl⟩

/-- The root of an inode's row has no page left. -/
def DropsNothing (rows : Rows Value) (id : InodeID) : Prop :=
  ∀ row ∈ (rows.inode id).toOption.join, OldRootEmpty rows id row.asV2

theorem DropsNothing.of_row {rows : Rows Value} (h : DropsNothing rows id) {row : InodeRow}
    (hrow : rows.inode id = .ok (some row)) : OldRootEmpty rows id row.asV2 :=
  h row (by rw [hrow]; rfl)

/-- The row an operation starts from, and the rest of the operation. -/
theorem follows_getV2 {f : InodeMetaV2 → Op Unit}
    (h : ∀ row, l.rows.inode id = .ok (some row) → Follows cfg l (f row.asV2 l).2) :
    Follows cfg l ((getV2 id >>= f) l).2 := by
  rcases getV2_cases id l with ⟨e, he⟩ | ⟨row, hrow, hget⟩
  · rw [bind_error he]
    exact .refl l
  · rw [bind_ok hget]
    exact h row hrow

section

variable (h : DropsNothing l.rows id) (now : Int)
include h

theorem follows_setInlineRow (ext : ExtentMeta)
    (size : Int) : Follows cfg l (setInlineRow cfg now id ext size l).2 := by
  refine follows_getV2 fun row hrow => ?_
  refine (Reaches.refl l).bind (.putWithBucketStats _ _)
    (Keeps.putWithBucketStats id row.asV2.extentRoot _ _) fun _ l' hl' => ?_
  exact hl'.drop (h.of_row hrow)

theorem follows_promoteToPages :
    Follows cfg l (promoteToPages cfg now id l).2 := by
  refine follows_getV2 fun row hrow => ?_
  refine (Reaches.refl l).bind (.writePage _ _ _ _)
    (Keeps.writePage id row.asV2.extentRoot _ _) fun _ l' hl' => ?_
  refine hl'.bind (.put _ _) (.put _ (not_isPage_inode _ _ _)) fun _ l'' hl'' => ?_
  exact hl''.drop (h.of_row hrow)

theorem follows_replaceRows (writes : List ExtentWrite)
    (size : Int) : Follows cfg l (replaceRows cfg now id writes size l).2 := by
  refine follows_getV2 fun row hrow => ?_
  refine (Reaches.refl l).bind (.writePages _ _ _ _)
    (Keeps.writePages id row.asV2.extentRoot _ _) fun _ l' hl' => ?_
  refine hl'.bind (.putWithBucketStats _ _) (.putWithBucketStats _ _ _ _) fun _ l'' hl'' => ?_
  exact hl''.drop (h.of_row hrow)

end

theorem Logged.appendToPage (id : InodeID) (root p : Nat) (ref : ExtentRef) :
    Logged cfg (appendToPage cfg id root p ref) := by
  refine .bind .rows fun rows => .bind (.lift _) fun found => ?_
  split
  · refine .ite ?_ ?_
    · exact .bind (.writePage _ _ _ _) fun _ => .pure _
    · refine .bind (.lift _) fun page => ?_
      exact .bind (.writePage _ _ _ _) fun _ => .pure _
  · refine .bind (.lift _) fun page => ?_
    exact .bind (.writePage _ _ _ _) fun _ => .pure _

/-- The row is in page mode, or its root has no page left. -/
def AppendsOrDropsNothing (rows : Rows Value) (id : InodeID) : Prop :=
  ∀ row ∈ (rows.inode id).toOption.join,
    row.asV2.layout = .extentPages ∨ OldRootEmpty rows id row.asV2

/-- An append drops an old root only when it leaves another layout. -/
theorem follows_appendRow (h : AppendsOrDropsNothing l.rows id) (now : Int) (ref : ExtentRef)
    (extentSize : Int) : Follows cfg l (appendRow cfg now id ref extentSize l).2 := by
  have hensure : Follows cfg l (ensurePages cfg now id l).2 := by
    refine follows_getV2 fun row hrow => ?_
    split_ifs with hlayout
    · refine follows_promoteToPages (fun row' hrow' => ?_) now
      rw [hrow] at hrow'
      obtain rfl : row = row' := Option.some.inj hrow'
      exact (h row (by rw [hrow]; rfl)).resolve_left hlayout
    · exact .refl l
  have hrest : Logged cfg (getV2 id >>= fun old =>
      appendToPage cfg id old.extentRoot (old.extentPageCount - 1) ref >>= fun created =>
        putWithBucketStats cfg { old with
          extentPageCount :=
            if created then toPageNo (old.extentPageCount + 1) else old.extentPageCount,
          extentRoot := nextRoot old.extentRoot, size := old.size + extentSize, ctime := now }
          old.size) :=
    .bind (.getV2 id) fun old => .bind (.appendToPage _ _ _ _) fun created =>
      .putWithBucketStats _ _
  show Follows cfg l ((ensurePages cfg now id >>= fun _ => _) l).2
  exact bind_rest hensure (fun _ h => h) fun _ l' h => h.trans (hrest l')

/-! ### The rows of extents come first -/

/-- Every key but those of the rows of extents. -/
def NotMeta (k : Key) : Prop := ∀ id, k ≠ .extentMeta id

theorem Logged.putExtentMeta (ext : ExtentMeta) : Logged cfg (putExtentMeta cfg ext) := .put _ _

theorem Keeps.putExtentMeta (ext : ExtentMeta) : Keeps NotMeta (putExtentMeta cfg ext) :=
  Keeps.put _ fun h => h ext.id rfl

theorem Logged.putExtentMetas (writes : List ExtentWrite) :
    Logged cfg (putExtentMetas cfg writes) := by
  induction writes with
  | nil => exact .pure _
  | cons w writes ih => exact .bind (.putExtentMeta _) fun _ => ih

theorem Keeps.putExtentMetas (writes : List ExtentWrite) :
    Keeps NotMeta (putExtentMetas cfg writes) := by
  induction writes with
  | nil => exact .pure _
  | cons w writes ih => exact (Keeps.putExtentMeta _).bind fun _ => ih

section
variable {rows : Rows Value} (h : ∀ k, NotMeta k → rows'.lookup k = rows.lookup k)
include h

theorem inode_congr (id : InodeID) : rows'.inode id = rows.inode id := by
  unfold Rows.inode
  rw [h _ fun _ => Key.noConfusion]

theorem OldRootEmpty.congr (hempty : OldRootEmpty rows id old) : OldRootEmpty rows' id old := by
  intro hroot p hp
  rw [h _ fun _ => Key.noConfusion]
  exact hempty hroot p hp

theorem DropsNothing.congr (hdrops : DropsNothing rows id) : DropsNothing rows' id := by
  intro row hrow
  rw [inode_congr h] at hrow
  exact (hdrops row hrow).congr h

theorem AppendsOrDropsNothing.congr (happends : AppendsOrDropsNothing rows id) :
    AppendsOrDropsNothing rows' id := by
  intro row hrow
  rw [inode_congr h] at hrow
  exact (happends row hrow).imp_right fun hempty => hempty.congr h

end

/-! ### Replicas -/

/-- The call deletes no page of an old root. -/
def DropsNoPage (l : Leader) : Call → Prop
  | .setInlineExtent _ id _ _ => DropsNothing l.rows id
  | .promoteToPages _ id => DropsNothing l.rows id
  | .appendExtent _ id _ _ => AppendsOrDropsNothing l.rows id
  | .replaceExtents _ id _ _ => DropsNothing l.rows id
  | _ => True

/-- A call that deletes no page of an old root goes through the log. -/
theorem follows_call {c : Call} (h : DropsNoPage l c) : Follows cfg l (l.call cfg c) := by
  cases c with
  | createFile parent name now mint retry =>
    exact (Logged.createFile parent name now mint retry).bind (fun _ => .pure _) l
  | symlink parent name target now mint retry =>
    exact (Logged.symlink parent name target now mint retry).bind (fun _ => .pure _) l
  | mkDir parent name now mint retry =>
    exact (Logged.mkDir parent name now mint retry).bind (fun _ => .pure _) l
  | unlink parent name full => exact Logged.unlink parent name full l
  | rmDir parent name full => exact Logged.rmDir parent name full l
  | link parent name target now => exact Logged.link parent name target now l
  | rename oldParent oldName newParent newName full =>
    exact Logged.rename oldParent oldName newParent newName full l
  | updateInode now m => exact Logged.updateInode now m l
  | allocateChunks id offsets replicas attempts =>
    exact Logged.allocateChunks id offsets replicas attempts l
  | commitChunk id => exact Logged.commitChunk id l
  | updateChunk chunk => exact Logged.updateChunk chunk l
  | sealChunk id => exact Logged.sealChunk id l
  | deleteChunk id => exact Logged.deleteChunk id l
  | purgeChunk id catalog => exact Logged.purgeChunk id catalog l
  | createEmpty id type bucketRoot now => exact Logged.put _ _ l
  | setInlineExtent now id ext size =>
    refine (Reaches.refl l).bind (Logged.putExtentMeta ext) (Keeps.putExtentMeta ext)
      fun _ l' hl' => ?_
    exact hl'.follows.trans (follows_setInlineRow (h.congr hl'.keeps) now ext size)
  | promoteToPages now id => exact follows_promoteToPages h now
  | appendExtent now id ext offset =>
    refine (Reaches.refl l).bind (Logged.putExtentMeta ext) (Keeps.putExtentMeta ext)
      fun _ l' hl' => ?_
    exact hl'.follows.trans (follows_appendRow (h.congr hl'.keeps) now _ _)
  | replaceExtents now id writes size =>
    refine (Reaches.refl l).bind (Logged.putExtentMetas writes) (Keeps.putExtentMetas writes)
      fun _ l' hl' => ?_
    exact hl'.follows.trans (follows_replaceRows (h.congr hl'.keeps) now writes size)

/-- The next call of a run. -/
def nextCall (cfg : Config) (l : Leader) (c : Call) : Option Leader := some (l.call cfg c)

theorem follows_run {calls : List Call} (h : Guarded.Meets (nextCall cfg) DropsNoPage calls l) :
    Follows cfg l (Leader.run cfg calls l) := by
  induction calls generalizing l with
  | nil => exact .refl l
  | cons c calls ih =>
    have hrest : Guarded.Meets (nextCall cfg) DropsNoPage calls (l.call cfg c) := h.2 _ rfl
    exact (follows_call h.1).trans (ih hrest)

/--
**Replicas agree.**  In every run of calls none of which deletes a page of an old root, a
follower that starts from the rows of the leader and applies its log has its rows.
-/
theorem replicas_agree (cfg : Config) (rows : Rows Value) (term : UInt64) (calls : List Call)
    (h : Guarded.Meets (nextCall cfg) DropsNoPage calls (Leader.start rows term)) :
    (Leader.run cfg calls (.start rows term)).follower cfg rows =
      (Leader.run cfg calls (.start rows term)).rows := by
  obtain ⟨es, hlog, hrows⟩ := follows_run h
  rw [hrows]
  show Fsm.applyLog cfg.codec (Leader.run cfg calls (.start rows term)).log rows = _
  rw [hlog]
  rfl

/-- A service that counts no bytes and lets every fenced batch pass. -/
def plainConfig : Config := ⟨false, fun _ => true⟩

/-- A file with one extent gets a second one. -/
def growingCalls : List Call :=
  [.createEmpty 2 .regular 0 0, .setInlineExtent 0 2 ⟨7, 10⟩ 10, .appendExtent 0 2 ⟨8, 10⟩ 10]

theorem replicas_agree_growing :
    Guarded.Meets (nextCall plainConfig) DropsNoPage growingCalls (Leader.start ∅ 1) ∧
      (Leader.run plainConfig growingCalls (.start ∅ 1)).follower plainConfig ∅ =
        (Leader.run plainConfig growingCalls (.start ∅ 1)).rows := by
  have h : Guarded.Meets (nextCall plainConfig) DropsNoPage growingCalls (Leader.start ∅ 1) := by
    refine ⟨trivial, fun l hl => ⟨?_, fun l' hl' => ⟨?_, fun _ _ => trivial⟩⟩⟩
    · cases hl
      intro row hrow hroot
      cases hrow
      exact absurd rfl hroot
    · cases hl
      cases hl'
      intro row hrow
      cases hrow
      exact .inr fun hroot => absurd rfl hroot
  exact ⟨h, replicas_agree plainConfig ∅ 1 growingCalls h⟩

/-- The extents of a file are replaced twice. -/
def replacingCalls : List Call :=
  [.createEmpty 2 .regular 0 0, .replaceExtents 0 2 [⟨⟨7, 10⟩, 0⟩] 10,
    .replaceExtents 0 2 [⟨⟨8, 10⟩, 0⟩] 10]

/-- The page of the first root is gone on the leader; the follower keeps it. -/
theorem replicas_agree_replacing :
    let l := Leader.run plainConfig replacingCalls (.start ∅ 1)
    l.follower plainConfig ∅ ≠ l.rows ∧ l.rows.lookup (.extentPage 2 1 0) = none ∧
      (l.follower plainConfig ∅).lookup (.extentPage 2 1 0) = some (.page [⟨7, 0⟩]) := by
  decide

end Nufs.Metadata
