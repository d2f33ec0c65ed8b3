import Mathlib.Tactic.Common

/-!
# CRC-32c

The rolling Castagnoli checksum of `core/compat/crc32c.c`, as its software path
computes it; the hardware paths the source dispatches to compute the same
function. Every block checksum and every section checksum of the metadata
record is one of these.
-/

namespace BrixCache

/-- `BRIX_CRC32C_POLY`, the reflected Castagnoli polynomial. -/
def crc32cPoly : UInt32 := 0x82F63B78

/-- One bit of the division: shift, and subtract the polynomial if the bit
that fell out was set. -/
def crc32cBit (crc : UInt32) : UInt32 := (crc >>> 1) ^^^ (crc32cPoly &&& (0 - (crc &&& 1)))

def crc32cByte (crc : UInt32) (b : UInt8) : UInt32 :=
  Nat.repeat crc32cBit 8 (crc ^^^ b.toUInt32)

/-- `brix_crc32c_extend`: absorb `p` into the running checksum `crc`. -/
def crc32cExtend (crc : UInt32) (p : List UInt8) : UInt32 :=
  p.foldl crc32cByte (crc ^^^ 0xFFFFFFFF) ^^^ 0xFFFFFFFF

/-- `brix_crc32c_value`: the checksum of `p`. -/
def crc32cValue (p : List UInt8) : UInt32 := crc32cExtend 0 p

theorem crc32cExtend_nil (crc : UInt32) : crc32cExtend crc [] = crc := by
  rw [crc32cExtend, List.foldl_nil, UInt32.xor_assoc, UInt32.xor_self, UInt32.xor_zero]

theorem crc32cExtend_append (crc : UInt32) (p q : List UInt8) :
    crc32cExtend crc (p ++ q) = crc32cExtend (crc32cExtend crc p) q := by
  simp only [crc32cExtend, List.foldl_append, UInt32.xor_assoc, UInt32.xor_self,
    UInt32.xor_zero]

/-- The check value of the algorithm, over the digits `1` to `9`. -/
example : crc32cValue [0x31, 0x32, 0x33, 0x34, 0x35, 0x36, 0x37, 0x38, 0x39] = 0xE3069283 := by
  decide +kernel

end BrixCache
