/-
Readers of byte strings.

A reader takes a value off the front of a byte string.  Two laws are kept by putting
readers together.  A reader finds what was written in front of anything.  A reader that
succeeds does not look behind what it took, so it succeeds in front of anything else.
From the two laws, a string that is cut short or goes on is not read to its end.
-/
import Nufs.Lib.Layout

namespace Wire

open Layout List

/-- A reader takes a value off the front of a byte string. -/
def Reader (ε α : Type) := List UInt8 → Except ε (α × List UInt8)

namespace Reader

variable {ε α β : Type}

/-- One reader after the other. -/
def next (r : Reader ε α) (f : α → Reader ε β) : Reader ε β := fun bs =>
  match r bs with
  | .error e => .error e
  | .ok (a, rest) => f a rest

instance monad : Monad (Reader ε) where
  pure a := fun bs => .ok (a, bs)
  bind := next

/-- Nothing can be read. -/
def fail (e : ε) : Reader ε α := fun _ => .error e

/-- A reader several times. -/
def times (r : Reader ε α) : Nat → Reader ε (List α)
  | 0 => pure []
  | n + 1 => do
      let a ← r
      let as ← times r n
      return a :: as

/-- The reader finds the value in front of anything. -/
def Reads (r : Reader ε α) (bs : List UInt8) (a : α) : Prop :=
  ∀ rest, r (bs ++ rest) = .ok (a, rest)

/-- A reader that succeeds does so in front of anything more. -/
def Extends (r : Reader ε α) : Prop :=
  ∀ bs a rest more, r bs = .ok (a, rest) → r (bs ++ more) = .ok (a, rest ++ more)

theorem bind_eq (r : Reader ε α) (f : α → Reader ε β) (bs : List UInt8) :
    (r >>= f) bs = match r bs with
      | .error e => .error e
      | .ok (a, rest) => f a rest := rfl

variable {bs : List UInt8}

variable {r : Reader ε α} {f : α → Reader ε β} {b : β} {a : α} {P : α → Prop}

theorem bind_eq_ok {rest : List UInt8} (h : (r >>= f) bs = .ok (b, rest)) :
    ∃ a mid, r bs = .ok (a, mid) ∧ f a mid = .ok (b, rest) := by
  rw [bind_eq] at h
  cases hr : r bs with
  | error e => simp [hr] at h
  | ok p =>
    rw [hr] at h
    exact ⟨p.1, p.2, rfl, h⟩

/-! ### Finding what was written -/

theorem Reads.pure (a : α) : Reads (pure a : Reader ε α) [] a := fun _ => rfl

theorem Reads.bind {cs : List UInt8} (hr : Reads r bs a) (hf : Reads (f a) cs b) :
    Reads (r >>= f) (bs ++ cs) b := by
  intro rest
  rw [bind_eq, append_assoc, hr]
  exact hf rest

/-- The last part of a reader only puts the value together. -/
theorem Reads.map (hr : Reads r bs a) (hf : Reads (f a) [] b) : Reads (r >>= f) bs b := by
  have h := hr.bind hf
  rwa [append_nil] at h

theorem Reads.times {enc : α → List UInt8} {as : List α} (h : ∀ a ∈ as, Reads r (enc a) a) :
    Reads (times r as.length) (as.flatMap enc) as := by
  induction as with
  | nil => exact .pure []
  | cons a as ih =>
    have hrest := ih fun b hb => h b (mem_cons_of_mem a hb)
    rw [flatMap_cons]
    exact (h a (.head _)).bind (hrest.map (.pure (a :: as)))

/-! ### Not looking behind -/

theorem Extends.pure (a : α) : Extends (pure a : Reader ε α) := by
  intro bs b rest more h
  obtain ⟨rfl, rfl⟩ : a = b ∧ bs = rest := by
    simpa [Pure.pure] using h
  rfl

theorem Extends.fail (e : ε) : Extends (fail e : Reader ε α) := by
  intro bs b rest more h
  simp [Reader.fail] at h

theorem Extends.bind (hr : Extends r) (hf : ∀ a, Extends (f a)) : Extends (r >>= f) := by
  intro bs b rest more h
  obtain ⟨a, mid, hmid, hrest⟩ := bind_eq_ok h
  rw [bind_eq, hr bs a mid more hmid]
  exact hf a mid b rest more hrest

theorem Extends.ite {p : Prop} [Decidable p] {s : Reader ε α} (hr : Extends r) (hs : Extends s) :
    Extends (if p then r else s) := by
  split_ifs
  · exact hr
  · exact hs

theorem Extends.times (hr : Extends r) : ∀ n, Extends (times r n) := by
  intro n
  induction n with
  | zero => exact .pure []
  | succ n ih => exact hr.bind fun a => ih.bind fun as => .pure (a :: as)

/-- **Nothing shorter.**  A string that lacks something at its end is not read. -/
theorem Extends.cut_ne (hr : Extends r) {cut missing : List UInt8} (hreads : Reads r bs a)
    (hcut : cut ++ missing = bs) (hmissing : missing ≠ []) (b : α) (rest : List UInt8) :
    r cut ≠ .ok (b, rest) := by
  intro hok
  have hall : r bs = .ok (b, rest ++ missing) := by
    rw [← hcut]
    exact hr cut b rest missing hok
  have hend : r bs = .ok (a, []) := by
    rw [← hreads [], append_nil]
  rw [hall] at hend
  have hnil : rest ++ missing = [] := (Prod.ext_iff.mp (Except.ok.inj hend)).2
  exact hmissing (append_eq_nil_iff.mp hnil).2

/-! ### Naming the error -/

/-- A reader whose error says what it was to read. -/
def tag {ε' : Type} (f : ε → ε') (r : Reader ε α) : Reader ε' α := fun bs => (r bs).mapError f

theorem Reads.tag {ε' : Type} {f : ε → ε'} (h : Reads r bs a) : Reads (tag f r) bs a := by
  intro rest
  rw [Reader.tag, h rest]
  rfl

theorem Extends.tag {ε' : Type} {f : ε → ε'} (h : Extends r) : Extends (tag f r) := by
  intro bs a rest more hok
  rw [Reader.tag] at hok
  cases hr : r bs with
  | error e =>
    rw [hr] at hok
    cases hok
  | ok p =>
    rw [hr] at hok
    obtain rfl : p = (a, rest) := Except.ok.inj hok
    rw [Reader.tag, h bs a rest more hr]
    rfl

/-! ### What can be read at all -/

/-- Whatever the reader gives has a property. -/
def Gives (r : Reader ε α) (P : α → Prop) : Prop :=
  ∀ bs a rest, r bs = .ok (a, rest) → P a

theorem Gives.pure (h : P a) : Gives (pure a : Reader ε α) P := by
  intro bs b rest heq
  obtain ⟨rfl, -⟩ : a = b ∧ bs = rest := by simpa [Pure.pure] using heq
  exact h

theorem Gives.fail (e : ε) : Gives (fail e : Reader ε α) P := by
  intro bs b rest h
  simp [Reader.fail] at h

theorem Gives.bind {Q : β → Prop} (hr : Gives r P) (hf : ∀ a, P a → Gives (f a) Q) :
    Gives (r >>= f) Q := by
  intro bs b rest h
  obtain ⟨a, mid, hmid, hrest⟩ := bind_eq_ok h
  exact hf a (hr bs a mid hmid) mid b rest hrest

theorem Gives.times (hr : Gives r P) :
    ∀ n, Gives (times r n) fun as => as.length = n ∧ ∀ a ∈ as, P a := by
  intro n
  induction n with
  | zero => exact .pure ⟨rfl, by simp⟩
  | succ n ih =>
    refine hr.bind fun a ha => ih.bind fun as has => .pure ⟨?_, ?_⟩
    · rw [length_cons, has.1]
    · exact forall_mem_cons.mpr ⟨ha, has.2⟩

end Reader

/-! ### Bytes and words -/

section Words

variable {ε : Type} (eof short : ε)

/-- `io.ReadFull`: a number of bytes; nothing is left, or too little is left. -/
def readFull (n : Nat) : Reader ε (List UInt8) := fun bs =>
  if n ≤ bs.length then .ok (bs.take n, bs.drop n)
  else if bs = [] then .error eof
  else .error short

/-- A number in big-endian order. -/
def readWord (width : Nat) : Reader ε Nat := do
  let bs ← readFull eof short width
  return ofBE bs

variable {eof short}

theorem reads_readFull (bs : List UInt8) : (readFull eof short bs.length).Reads bs bs := by
  intro rest
  have hlen : bs.length ≤ (bs ++ rest).length := by simp
  rw [readFull, if_pos hlen, take_left, drop_left]

theorem extends_readFull (n : Nat) : (readFull eof short n).Extends := by
  intro bs a rest more h
  rw [readFull] at h
  split_ifs at h with hn
  cases h
  have hlen : n ≤ (bs ++ more).length := by
    rw [length_append]
    omega
  rw [readFull, if_pos hlen, take_append_of_le_length hn, drop_append_of_le_length hn]

theorem reads_readWord {width n : Nat} (hn : n < 256 ^ width) :
    (readWord eof short width).Reads (be width n) n := by
  have hfull : (readFull eof short width).Reads (be width n) (be width n) := by
    have h : (readFull eof short (be width n).length).Reads _ _ := reads_readFull (be width n)
    rwa [length_be] at h
  refine hfull.map ?_
  intro rest
  rw [ofBE_be, Nat.mod_eq_of_lt hn]
  rfl

theorem extends_readWord (width : Nat) : (readWord eof short width).Extends :=
  (extends_readFull width).bind fun bs => .pure (ofBE bs)

theorem gives_readFull (n : Nat) : (readFull eof short n).Gives fun bs => bs.length = n := by
  intro bs a rest h
  rw [readFull] at h
  split_ifs at h with hn
  cases h
  exact length_take_of_le hn

theorem gives_readWord (width : Nat) : (readWord eof short width).Gives (· < 256 ^ width) := by
  refine (gives_readFull width).bind fun bs hbs => .pure ?_
  rw [← hbs]
  exact ofBE_lt bs

end Words

end Wire
