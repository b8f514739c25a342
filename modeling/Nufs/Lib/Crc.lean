/-
The reflected 32-bit cyclic redundancy check.

A checksum is a fold over the bytes, so a hash fed piece by piece is the hash of
the concatenation: `update_append`.  The polynomial is a parameter; the two
standard ones are given by name.
-/
import Mathlib.Data.List.Basic

namespace Crc

/-- One bit of the shift register: shift right, and add the polynomial on a carry. -/
def bitStep (poly c : UInt32) : UInt32 :=
  if c &&& 1 = 1 then (c >>> 1) ^^^ poly else c >>> 1

/-- An entry of the byte table. -/
def tableEntry (poly i : UInt32) : UInt32 :=
  Nat.repeat (bitStep poly) 8 i

/-- One byte of input: shift the register and add the table entry of the byte that left it. -/
def byteStep (poly c : UInt32) (b : UInt8) : UInt32 :=
  (c >>> 8) ^^^ tableEntry poly ((c ^^^ b.toUInt32) &&& 0xFF)

/-- Feed a byte string to the register. -/
def update (poly c : UInt32) (bs : List UInt8) : UInt32 :=
  bs.foldl (byteStep poly) c

/-- The checksum of a byte string: register all ones, fed, complemented. -/
def crc32 (poly : UInt32) (bs : List UInt8) : UInt32 :=
  ~~~ update poly 0xFFFFFFFF bs

/-- The Castagnoli polynomial, reflected. -/
def castagnoli : UInt32 := 0x82F63B78

/-- The IEEE 802.3 polynomial, reflected. -/
def ieee : UInt32 := 0xEDB88320

theorem update_append (poly c : UInt32) (as bs : List UInt8) :
    update poly c (as ++ bs) = update poly (update poly c as) bs := by
  simp [update, List.foldl_append]

-- The check value of the Castagnoli code: the checksum of the digits "123456789".
example : crc32 castagnoli [49, 50, 51, 52, 53, 54, 55, 56, 57] = 0xE3069283 := by
  decide +kernel

end Crc
