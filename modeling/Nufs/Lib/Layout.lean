/-
Fixed layouts of big-endian fields.

A fixed-size on-disk structure is a list of fields, each with a width in bytes
and a value; its encoding is the concatenation of the fields, most significant
byte first.  A decoder reads such a structure back by offset and width.  What is
needed of the two is one fact: reading at the offset of a field gives that
field's value, reduced to its width.

`valueAt` finds the field at an offset by walking the list, so for a concrete
layout the fact is instantiated by `rfl`, however long the layout is.
-/
import Mathlib.Data.List.Basic
import Mathlib.Tactic.Ring

namespace Layout

open List

/-! ### Big-endian words -/

/-- The `w` low bytes of `n`, most significant first; higher digits are dropped. -/
def be : Nat → Nat → List UInt8
  | 0, _ => []
  | w + 1, n => UInt8.ofNat (n / 256 ^ w) :: be w n

variable (bs : List UInt8)

/-- The number a big-endian byte string denotes. -/
def ofBE : Nat :=
  bs.foldl (fun acc b => acc * 256 + b.toNat) 0

@[simp] theorem length_be (w n : Nat) : (be w n).length = w := by
  induction w with
  | zero => rfl
  | succ w ih => simp [be, ih]

theorem foldl_be (w n acc : Nat) :
    (be w n).foldl (fun acc b => acc * 256 + b.toNat) acc = acc * 256 ^ w + n % 256 ^ w := by
  induction w generalizing acc with
  | zero => simp [be, Nat.mod_one]
  | succ w ih =>
    have hdigit : (UInt8.ofNat (n / 256 ^ w)).toNat = n / 256 ^ w % 256 := by
      simp [UInt8.toNat_ofNat']
    simp only [be, foldl_cons, ih, hdigit]
    rw [Nat.mod_pow_succ, Nat.pow_succ]
    ring

/-- A word read back is the number written, reduced to the word's width. -/
theorem ofBE_be (w n : Nat) : ofBE (be w n) = n % 256 ^ w := by
  simp [ofBE, foldl_be]

/-- The number of a byte string is below what its length can denote. -/
theorem ofBE_lt : ofBE bs < 256 ^ bs.length := by
  have hfold : ∀ (bs : List UInt8) (acc : Nat),
      bs.foldl (fun acc b => acc * 256 + b.toNat) acc < (acc + 1) * 256 ^ bs.length := by
    intro bs
    induction bs with
    | nil => intro acc; simp
    | cons b bs ih =>
      intro acc
      have hb : acc * 256 + b.toNat + 1 ≤ (acc + 1) * 256 := by
        have := b.toNat_lt
        omega
      calc (b :: bs).foldl (fun acc b => acc * 256 + b.toNat) acc
          < (acc * 256 + b.toNat + 1) * 256 ^ bs.length := ih _
        _ ≤ (acc + 1) * 256 * 256 ^ bs.length := Nat.mul_le_mul_right _ hb
        _ = (acc + 1) * 256 ^ (b :: bs).length := by
            rw [length_cons, Nat.pow_succ]
            ring
  have h := hfold bs 0
  rw [Nat.zero_add, Nat.one_mul] at h
  exact h

/-- The high bytes of a word, then the low ones. -/
theorem be_add (a b n : Nat) : be (a + b) n = be a (n / 256 ^ b) ++ be b n := by
  induction a with
  | zero => simp [be]
  | succ a ih =>
    rw [Nat.succ_add, be, be, ih, cons_append, Nat.div_div_eq_div_mul, ← Nat.pow_add,
      Nat.add_comm b a]

/-! ### Layouts -/

/-- A field: its width in bytes and its value. -/
abbrev Field := Nat × Nat

/-- The encoding of a list of fields. -/
def layout (fs : List Field) : List UInt8 :=
  fs.flatMap fun f => be f.1 f.2

/-- The number of bytes a list of fields takes. -/
def width (fs : List Field) : Nat :=
  (fs.map Prod.fst).sum

/-- The number stored in `w` bytes at offset `off`. -/
def fieldAt (off w : Nat) : Nat :=
  ofBE ((bs.drop off).take w)

/-- The value of the field of width `w` that starts at offset `off`, if there is one. -/
def valueAt : List Field → Nat → Nat → Option Nat
  | [], _, _ => none
  | (w', v) :: fs, off, w =>
    if off = 0 then (if w = w' then some v else none)
    else if w' ≤ off then valueAt fs (off - w') w
    else none

@[simp] theorem width_nil : width [] = 0 := rfl

@[simp] theorem width_cons (f : Field) (fs : List Field) : width (f :: fs) = f.1 + width fs := rfl

@[simp] theorem width_append (fs gs : List Field) : width (fs ++ gs) = width fs + width gs := by
  simp [width]

@[simp] theorem layout_nil : layout [] = [] := rfl

@[simp] theorem layout_cons (f : Field) (fs : List Field) :
    layout (f :: fs) = be f.1 f.2 ++ layout fs := rfl

theorem layout_append (fs gs : List Field) : layout (fs ++ gs) = layout fs ++ layout gs := by
  simp [layout]

theorem length_layout (fs : List Field) : (layout fs).length = width fs := by
  induction fs with
  | nil => rfl
  | cons f fs ih => simp [ih]

/-- Reading past a whole front part is reading in what follows it. -/
theorem fieldAt_append_right (as bs : List UInt8) (k w : Nat) :
    fieldAt (as ++ bs) (as.length + k) w = fieldAt bs k w := by
  rw [fieldAt, fieldAt, drop_length_add_append]

variable {w n v k : Nat}

/-- Reading inside a front part does not see what follows it. -/
theorem fieldAt_append_left (as bs : List UInt8) {off : Nat} (h : off + w ≤ as.length) :
    fieldAt (as ++ bs) off w = fieldAt as off w := by
  have hdrop : (as ++ bs).drop off = as.drop off ++ bs := drop_append_of_le_length (by omega)
  have hlen : w ≤ (as.drop off).length := by
    rw [length_drop]
    omega
  rw [fieldAt, fieldAt, hdrop, take_append_of_le_length hlen]

/-- Reading inside the first `n` bytes is reading in the whole. -/
theorem fieldAt_take {off : Nat} (h : off + w ≤ n) :
    fieldAt (bs.take n) off w = fieldAt bs off w := by
  rw [fieldAt, fieldAt, drop_take, take_take, min_eq_left (by omega)]

/-- **Reading at a field's offset gives the field.** -/
theorem fieldAt_layout {fs : List Field} {off : Nat} (h : valueAt fs off w = some v)
    (rest : List UInt8) : fieldAt (layout fs ++ rest) off w = v % 256 ^ w := by
  induction fs generalizing off with
  | nil => simp [valueAt] at h
  | cons f fs ih =>
    obtain ⟨w', v'⟩ := f
    rw [valueAt] at h
    split_ifs at h with h0 hw hle
    · -- The field is the first one.
      obtain rfl : v' = v := by simpa using h
      subst h0 hw
      rw [layout_cons, append_assoc,
        fieldAt_append_left _ _ (show 0 + w ≤ (be w v').length by simp)]
      rw [fieldAt, drop_zero, take_of_length_le (by simp), ofBE_be]
    · have hoff : off = (be w' v').length + (off - w') := by
        rw [length_be]
        omega
      rw [layout_cons, append_assoc, hoff, fieldAt_append_right]
      simpa using ih h

/-- The bytes before the fields `gs` are the fields `fs`. -/
theorem take_layout {fs : List Field} (h : width fs = n) (gs : List Field) :
    (layout (fs ++ gs)).take n = layout fs := by
  rw [layout_append, ← h, ← length_layout, take_left]

/-! ### Machine words

The fields of a structure are unsigned machine words, so no digit is lost and a
decoder gives back exactly the word that was written.
-/

/-- A one-byte field. -/
def f8 (x : UInt8) : Field := (1, x.toNat)
/-- A two-byte field. -/
def f16 (x : UInt16) : Field := (2, x.toNat)
/-- A four-byte field. -/
def f32 (x : UInt32) : Field := (4, x.toNat)
/-- An eight-byte field. -/
def f64 (x : UInt64) : Field := (8, x.toNat)

@[simp] theorem f8_fst (x : UInt8) : (f8 x).1 = 1 := rfl
@[simp] theorem f16_fst (x : UInt16) : (f16 x).1 = 2 := rfl
@[simp] theorem f32_fst (x : UInt32) : (f32 x).1 = 4 := rfl
@[simp] theorem f64_fst (x : UInt64) : (f64 x).1 = 8 := rfl

/-- The byte at an offset. -/
def u8At (off : Nat) : UInt8 := UInt8.ofNat (fieldAt bs off 1)
/-- The two-byte word at an offset. -/
def u16At (off : Nat) : UInt16 := UInt16.ofNat (fieldAt bs off 2)
/-- The four-byte word at an offset. -/
def u32At (off : Nat) : UInt32 := UInt32.ofNat (fieldAt bs off 4)
/-- The eight-byte word at an offset. -/
def u64At (off : Nat) : UInt64 := UInt64.ofNat (fieldAt bs off 8)

variable {fs : List Field} {off : Nat}

private theorem fieldAt_layout_nil (h : valueAt fs off w = some v) :
    fieldAt (layout fs) off w = v % 256 ^ w := by
  rw [← fieldAt_layout h [], append_nil]

theorem u8At_layout {x : UInt8} (h : valueAt fs off 1 = some x.toNat) :
    u8At (layout fs) off = x := by
  rw [u8At, fieldAt_layout_nil h, Nat.mod_eq_of_lt (show x.toNat < 256 ^ 1 from x.toNat_lt),
    UInt8.ofNat_toNat]

theorem u16At_layout {x : UInt16} (h : valueAt fs off 2 = some x.toNat) :
    u16At (layout fs) off = x := by
  rw [u16At, fieldAt_layout_nil h, Nat.mod_eq_of_lt (show x.toNat < 256 ^ 2 from x.toNat_lt),
    UInt16.ofNat_toNat]

theorem u32At_layout {x : UInt32} (h : valueAt fs off 4 = some x.toNat) :
    u32At (layout fs) off = x := by
  rw [u32At, fieldAt_layout_nil h, Nat.mod_eq_of_lt (show x.toNat < 256 ^ 4 from x.toNat_lt),
    UInt32.ofNat_toNat]

theorem u64At_layout {x : UInt64} (h : valueAt fs off 8 = some x.toNat) :
    u64At (layout fs) off = x := by
  rw [u64At, fieldAt_layout_nil h, Nat.mod_eq_of_lt (show x.toNat < 256 ^ 8 from x.toNat_lt),
    UInt64.ofNat_toNat]

/-! Words are read through `fieldAt`, so they are found behind a front part and do not
see what follows. -/

theorem u8At_append_right (as bs : List UInt8) (k : Nat) :
    u8At (as ++ bs) (as.length + k) = u8At bs k := by
  rw [u8At, fieldAt_append_right, u8At]

theorem u32At_append_right (as bs : List UInt8) (k : Nat) :
    u32At (as ++ bs) (as.length + k) = u32At bs k := by
  rw [u32At, fieldAt_append_right, u32At]

theorem u8At_append_left (as bs : List UInt8) (h : k + 1 ≤ as.length) :
    u8At (as ++ bs) k = u8At as k := by
  rw [u8At, fieldAt_append_left as bs h, u8At]

theorem u32At_append_left (as bs : List UInt8) (h : k + 4 ≤ as.length) :
    u32At (as ++ bs) k = u32At as k := by
  rw [u32At, fieldAt_append_left as bs h, u32At]

theorem u32At_take (h : k + 4 ≤ n) : u32At (bs.take n) k = u32At bs k := by
  rw [u32At, fieldAt_take bs h, u32At]

theorem u64At_append_left (as bs : List UInt8) (h : k + 8 ≤ as.length) :
    u64At (as ++ bs) k = u64At as k := by
  rw [u64At, fieldAt_append_left as bs h, u64At]

end Layout
