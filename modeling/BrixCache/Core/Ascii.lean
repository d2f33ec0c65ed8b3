import Mathlib.Tactic.Common

/-!
# Bytes of texts
-/

namespace BrixCache

/-- A string of bytes -/
abbrev Bytes : Type := List UInt8

/-- The bytes of a text. -/
def ascii (s : String) : Bytes := s.toList.map fun c => UInt8.ofNat c.toNat

def slash : UInt8 := 47

end BrixCache
