import BrixCache.Core.Ascii
import Mathlib.Algebra.Ring.Nat

/-!
# Digests and names of a registry

`shared/oci/digest.c` and `name.c`: a digest is the name of an algorithm, a colon and as many
lowercase hex digits as the algorithm has, and the number of digits alone tells the algorithm; a
repository name is a path of components.
-/

namespace BrixCache

open List

namespace Oci

/-- The digest algorithms -/
inductive Alg : Type where
  | sha256 : Alg
  | sha512 : Alg
  deriving DecidableEq

namespace Alg

/-- The algorithms, in the order of their table. -/
def all : List Alg := [.sha256, .sha512]

/-- `brix_oci_alg_name` -/
def name : Alg → Bytes
  | .sha256 => ascii "sha256"
  | .sha512 => ascii "sha512"

/-- `brix_oci_alg_hexlen` -/
def hexlen : Alg → ℕ
  | .sha256 => 64
  | .sha512 => 128

theorem mem_all (a : Alg) : a ∈ all := by
  cases a <;> simp [all]

theorem name_inj {a b : Alg} (h : a.name = b.name) : a = b := by
  cases a <;> cases b <;> first | rfl | exact absurd h (by decide)

end Alg

def hexLower (c : UInt8) : Bool := (48 ≤ c && c ≤ 57) || (97 ≤ c && c ≤ 102)

/-- `brix_oci_digest_t`: as many lowercase hex digits as the algorithm has. -/
structure Digest : Type where
  alg : Alg
  hex : Bytes
  length_hex : hex.length = alg.hexlen
  lower_hex : hex.all hexLower = true
  deriving DecidableEq

/-- A row of the table in `brix_oci_digest_parse`, when the length and the name are its own. -/
def digestOfRow (a : Alg) (s : Bytes) : Option Digest :=
  if h : (s.drop 7).length = a.hexlen ∧ (s.drop 7).all hexLower = true then
    some ⟨a, s.drop 7, h.1, h.2⟩
  else none

def digestParse (s : Bytes) : Option Digest :=
  if s.length = 6 + 1 + 64 ∧ s.take 7 = ascii "sha256:" then digestOfRow .sha256 s
  else if s.length = 6 + 1 + 128 ∧ s.take 7 = ascii "sha512:" then digestOfRow .sha512 s
  else none

def digestParseHex (hex : Bytes) : Option Digest :=
  if hex.length = 64 then digestParse (ascii "sha256:" ++ hex)
  else if hex.length = 128 then digestParse (ascii "sha512:" ++ hex)
  else none

theorem digestParseHex_hex (d : Digest) : digestParseHex d.hex = some d := by
  obtain ⟨alg, hex, hlen, hlower⟩ := d
  have hrow : ∀ {pre : Bytes} {a : Alg} (hlen : hex.length = a.hexlen), pre.length = 7 →
      digestOfRow a (pre ++ hex) = some ⟨a, hex, hlen, hlower⟩ := by
    intro pre a hlen hpre
    have hdrop : (pre ++ hex).drop 7 = hex := drop_left' hpre
    rw [digestOfRow, dif_pos (by rw [hdrop]; exact ⟨hlen, hlower⟩)]
    simp only [hdrop]
  cases alg with
  | sha256 =>
    have hlen' : hex.length = 64 := hlen
    have htake : (ascii "sha256:" ++ hex).take 7 = ascii "sha256:" := take_left' rfl
    rw [digestParseHex, if_pos hlen', digestParse, if_pos ⟨by rw [length_append, hlen']; rfl,
      htake⟩, hrow hlen rfl]
  | sha512 =>
    have hlen' : hex.length = 128 := hlen
    have hne : ¬ hex.length = 64 := by omega
    have htake : (ascii "sha512:" ++ hex).take 7 = ascii "sha512:" := take_left' rfl
    rw [digestParseHex, if_neg hne, if_pos hlen', digestParse, if_neg (fun h => ?_),
      if_pos ⟨by rw [length_append, hlen']; rfl, htake⟩, hrow hlen rfl]
    have hlong := h.1
    rw [length_append, hlen'] at hlong
    cases hlong

/-! ## Repository names -/

def lowerAlnum (c : UInt8) : Bool := (97 ≤ c && c ≤ 122) || (48 ≤ c && c ≤ 57)

/-- `separator_end`: what is left behind a separator. -/
def separatorEnd : Bytes → Option Bytes
  | 46 :: s => some s
  | 95 :: 95 :: s => some s
  | 95 :: s => some s
  | 45 :: s => some (s.dropWhile (· = 45))
  | _ => none

/-- The loop of `component_valid`. -/
def componentLoop : ℕ → Bytes → Bool
  | 0, _ => false
  | turns + 1, s =>
    match s with
    | [] => false
    | c :: _ =>
      if !lowerAlnum c then false
      else
        match s.dropWhile lowerAlnum with
        | [] => true
        | s =>
          match separatorEnd s with
          | none => false
          | some s => componentLoop turns s

def componentValid (s : Bytes) : Bool := componentLoop s.length s

/-- `BRIX_OCI_NAME_MAX` -/
def nameMax : ℕ := 255

def nameLength (name : List Bytes) : ℕ := (name.map fun c => c.length + 1).sum - 1

/-- `brix_oci_name_valid`, of the components between the slashes. -/
def nameValid (name : List Bytes) : Bool :=
  !name.isEmpty && nameLength name ≤ nameMax && name.all componentValid

end Oci

end BrixCache
