import Mathlib.Data.Nat.Notation

/-!
# FNV-1a

`core/fnv.h`: the constants of the 64-bit hash and its loop over bytes.
-/

namespace BrixCache

def fnv1a64OffsetBasis : UInt64 := 14695981039346656037

def fnv1a64Prime : UInt64 := 1099511628211

/-- `h = (h ^ b) * BRIX_FNV1A64_PRIME` over the bytes -/
def fnv1a64Bytes (h : UInt64) (bytes : List UInt8) : UInt64 :=
  bytes.foldl (fun h b => (h ^^^ b.toUInt64) * fnv1a64Prime) h

end BrixCache
