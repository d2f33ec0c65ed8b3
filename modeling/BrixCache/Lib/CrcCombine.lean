import Mathlib.Tactic.Common

/-!
# Checksums of joined texts

A reflected checksum of 32 bits by any polynomial is linear in its register. So the checksum of two
texts joined comes from those of the texts: the first is run over as many zeros as the second is
long.
-/

namespace BrixCache

namespace Crc

def bit (poly s : UInt32) : UInt32 :=
  if s.toBitVec.getLsbD 0 then (s >>> 1) ^^^ poly else s >>> 1

def bits (poly : UInt32) : ℕ → UInt32 → UInt32
  | 0, s => s
  | n + 1, s => bits poly n (bit poly s)

def byte (poly s : UInt32) (b : UInt8) : UInt32 := bits poly 8 (s ^^^ b.toUInt32)

def feed (poly s : UInt32) (text : List UInt8) : UInt32 := text.foldl (byte poly) s

def value (poly : UInt32) (text : List UInt8) : UInt32 :=
  feed poly 0xFFFFFFFF text ^^^ 0xFFFFFFFF

/-- The checksum of two texts joined, from their checksums and the length of the second. -/
def combine (poly a b : UInt32) (n : ℕ) : UInt32 := bits poly (8 * n) a ^^^ b

variable {poly : UInt32}

theorem bit_xor (s t : UInt32) : bit poly (s ^^^ t) = bit poly s ^^^ bit poly t := by
  have hshift : (s ^^^ t) >>> 1 = (s >>> 1) ^^^ (t >>> 1) := UInt32.shiftRight_xor ..
  have hlow : (s ^^^ t).toBitVec.getLsbD 0 =
      (s.toBitVec.getLsbD 0 ^^ t.toBitVec.getLsbD 0) := by simp
  rw [bit, bit, bit, hlow, hshift]
  cases s.toBitVec.getLsbD 0 <;> cases t.toBitVec.getLsbD 0 <;>
    simp only [Bool.xor_false, Bool.xor_true, Bool.not_false, Bool.not_true, Bool.false_eq_true,
      if_true, if_false]
  · ac_rfl
  · ac_rfl
  · -- both subtract the polynomial, and it falls out
    rw [UInt32.xor_assoc, UInt32.xor_comm poly, UInt32.xor_assoc, UInt32.xor_self, UInt32.xor_zero]

theorem bits_xor (n : ℕ) (s t : UInt32) :
    bits poly n (s ^^^ t) = bits poly n s ^^^ bits poly n t := by
  induction n generalizing s t with
  | zero => rfl
  | succ n ih => rw [bits, bits, bits, bit_xor, ih]

theorem bits_add (m n : ℕ) (s : UInt32) : bits poly (m + n) s = bits poly n (bits poly m s) := by
  induction m generalizing s with
  | zero => rw [Nat.zero_add, bits]
  | succ m ih => rw [Nat.succ_add, bits, bits, ih]

theorem feed_xor (text : List UInt8) (s t : UInt32) :
    feed poly (s ^^^ t) text = feed poly s text ^^^ bits poly (8 * text.length) t := by
  induction text generalizing s t with
  | nil => rfl
  | cons b text ih =>
    have hbyte : byte poly (s ^^^ t) b = byte poly s b ^^^ bits poly 8 t := by
      have hcomm : s ^^^ t ^^^ b.toUInt32 = s ^^^ b.toUInt32 ^^^ t := by ac_rfl
      rw [byte, byte, hcomm, bits_xor]
    have hlen : 8 * (b :: text).length = 8 + 8 * text.length := by
      rw [List.length_cons]
      omega
    calc feed poly (s ^^^ t) (b :: text)
        = feed poly (byte poly s b ^^^ bits poly 8 t) text := by rw [← hbyte]; rfl
      _ = feed poly (byte poly s b) text ^^^ bits poly (8 * text.length) (bits poly 8 t) := ih _ _
      _ = feed poly s (b :: text) ^^^ bits poly (8 * (b :: text).length) t := by
          rw [hlen, bits_add]
          rfl

theorem combine_value (a b : List UInt8) :
    combine poly (value poly a) (value poly b) b.length = value poly (a ++ b) := by
  have hreg : feed poly 0xFFFFFFFF a = 0xFFFFFFFF ^^^ value poly a := by
    rw [value, UInt32.xor_comm (feed poly 0xFFFFFFFF a), ← UInt32.xor_assoc, UInt32.xor_self,
      UInt32.zero_xor]
  have happend : feed poly 0xFFFFFFFF (a ++ b) = feed poly (feed poly 0xFFFFFFFF a) b :=
    List.foldl_append
  have hvalue : value poly (a ++ b) = feed poly 0xFFFFFFFF (a ++ b) ^^^ 0xFFFFFFFF := rfl
  calc combine poly (value poly a) (value poly b) b.length
      = bits poly (8 * b.length) (value poly a) ^^^ (feed poly 0xFFFFFFFF b ^^^ 0xFFFFFFFF) := rfl
    _ = feed poly 0xFFFFFFFF b ^^^ bits poly (8 * b.length) (value poly a) ^^^ 0xFFFFFFFF := by
        ac_rfl
    _ = value poly (a ++ b) := by rw [hvalue, happend, hreg, feed_xor]

/-- The check value of the CRC-32 of zlib, over the digits `1` to `9`. -/
example : value 0xEDB88320 [0x31, 0x32, 0x33, 0x34, 0x35, 0x36, 0x37, 0x38, 0x39] = 0xCBF43926 := by
  decide +kernel

end Crc

end BrixCache
