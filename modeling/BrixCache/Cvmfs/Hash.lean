import BrixCache.Core.Ascii
import Mathlib.Data.List.Basic

/-!
# CVMFS content hashes

`shared/cvmfs/grammar/hash.c`, and the names objects have in a content-addressed store: the
digest in hex, two digits of it the directory, with a letter behind it that tells what kind of
object it is.
-/

namespace BrixCache

open List

/-- `cvmfs_hash_algo_e` -/
inductive CvmfsHashAlgo : Type where
  | sha1 : CvmfsHashAlgo
  | rmd160 : CvmfsHashAlgo
  | shake128 : CvmfsHashAlgo
  deriving DecidableEq

/-- The 20 bytes of a digest -/
structure CvmfsDigest : Type where
  bytes : Bytes
  length_bytes : bytes.length = 20
  deriving DecidableEq

/-- `cvmfs_hash_t`, of a hash that is there; `cvmfs_hash_eq` is equality. -/
structure CvmfsHash : Type where
  algo : CvmfsHashAlgo
  digest : CvmfsDigest
  deriving DecidableEq

namespace CvmfsHash

def hexval (c : UInt8) : Option ℕ :=
  if 48 ≤ c ∧ c ≤ 57 then some (c.toNat - 48)
  else if 97 ≤ c ∧ c ≤ 102 then some (c.toNat - 97 + 10)
  else none

/-- The bytes of pairs of hex digits. -/
def unhex : Bytes → Option Bytes
  | [] => some []
  | [_] => none
  | hi :: lo :: rest =>
    match hexval hi, hexval lo, unhex rest with
    | some h, some l, some bytes => some (UInt8.ofNat (h * 16 + l) :: bytes)
    | _, _, _ => none

/-- 40 digits, and no other number of them. -/
def ofHex (algo : CvmfsHashAlgo) (hex : Bytes) : Option CvmfsHash :=
  match unhex hex with
  | none => none
  | some bytes => if h : bytes.length = 20 then some ⟨algo, bytes, h⟩ else none

/-- `cvmfs_hash_parse` -/
def parse (hex : Bytes) : Option CvmfsHash :=
  if hex[40]? = some 45 then
    if hex.drop 41 = ascii "rmd160" then ofHex .rmd160 (hex.take 40)
    else if hex.drop 41 = ascii "shake128" then ofHex .shake128 (hex.take 40)
    else none
  else ofHex .sha1 hex

end CvmfsHash

namespace CvmfsDigest

/-- A digest of one byte, repeated. -/
def replicate (b : UInt8) : CvmfsDigest := ⟨List.replicate 20 b, length_replicate⟩

/-- A hex digit, `hx` of `hash_render`. -/
def hexDigit (n : ℕ) : UInt8 := (ascii "0123456789abcdef").getD n 0

/-- The 40 digits, `cvmfs_hash_to_hex` without a suffix. -/
def hex (d : CvmfsDigest) : Bytes :=
  d.bytes.flatMap fun b => [hexDigit (b.toNat / 16), hexDigit (b.toNat % 16)]

end CvmfsDigest

/-- A kind of object in the store, `0` or a letter. -/
abbrev CvmfsSuffix : Type := UInt8

/-- `gc_key_t`: the digest and the suffix. -/
abbrev CvmfsKey : Type := CvmfsDigest × CvmfsSuffix

/-- A file below `data`: the directory and the name in it. -/
abbrev CasName : Type := Bytes × Bytes

/-- `pub_object_path` -/
def casName (k : CvmfsKey) : CasName :=
  (k.1.hex.take 2, k.1.hex.drop 2 ++ if k.2 = 0 then [] else [k.2])

/-- The key a file of the store is named after. -/
def gcParseName (dir2 name : Bytes) : Option CvmfsKey :=
  if name.length ≠ 38 ∧ name.length ≠ 39 then none
  else
    match CvmfsHash.parse (dir2 ++ name.take 38) with
    | none => none
    | some h => some (h.digest, if name.length = 39 then name.getD 38 0 else 0)

/-! ## Reading names back -/

namespace CvmfsHash

theorem hexval_hexDigit : ∀ n : Fin 16, hexval (CvmfsDigest.hexDigit n) = some n.val := by
  decide

theorem unhex_hex (bytes : Bytes) :
    unhex (bytes.flatMap fun b =>
      [CvmfsDigest.hexDigit (b.toNat / 16), CvmfsDigest.hexDigit (b.toNat % 16)]) = some bytes := by
  induction bytes with
  | nil => rfl
  | cons b bytes ih =>
    have hlt := b.toNat_lt
    have hhi : hexval (CvmfsDigest.hexDigit (b.toNat / 16)) = some (b.toNat / 16) :=
      hexval_hexDigit ⟨b.toNat / 16, by omega⟩
    have hlo : hexval (CvmfsDigest.hexDigit (b.toNat % 16)) = some (b.toNat % 16) :=
      hexval_hexDigit ⟨b.toNat % 16, by omega⟩
    have hbyte : UInt8.ofNat (b.toNat / 16 * 16 + b.toNat % 16) = b := by
      rw [Nat.mul_comm, Nat.div_add_mod, UInt8.ofNat_toNat]
    simp only [flatMap_cons, cons_append, nil_append, unhex, hhi, hlo, ih, hbyte]

theorem length_hex (d : CvmfsDigest) : d.hex.length = 40 := by
  have hlen := d.length_bytes
  rw [CvmfsDigest.hex, length_flatMap]
  simp [hlen]

theorem parse_hex (d : CvmfsDigest) : parse d.hex = some ⟨.sha1, d⟩ := by
  have hlen := length_hex d
  rw [parse, getElem?_eq_none (by omega), if_neg nofun, ofHex, CvmfsDigest.hex, unhex_hex]
  exact dif_pos d.length_bytes

theorem toNat_hexDigit : ∀ n : Fin 16, (CvmfsDigest.hexDigit n).toNat =
    if n.val < 10 then 48 + n.val else 87 + n.val := by
  decide

theorem hexval_eq_some {c : UInt8} {n : ℕ} (h : hexval c = some n) :
    n < 16 ∧ CvmfsDigest.hexDigit n = c := by
  have hspec : n < 16 ∧ c.toNat = if n < 10 then 48 + n else 87 + n := by
    rw [hexval] at h
    simp only [UInt8.le_iff_toNat_le, UInt8.reduceToNat] at h
    split at h
    · cases h
      rw [if_pos (by omega)]
      omega
    · split at h
      · cases h
        rw [if_neg (by omega)]
        omega
      · cases h
  refine ⟨hspec.1, UInt8.toNat_inj.mp ?_⟩
  rw [hspec.2]
  exact toNat_hexDigit ⟨n, hspec.1⟩

theorem unhex_eq_some {hex bytes : Bytes} (h : unhex hex = some bytes) :
    bytes.flatMap (fun b =>
      [CvmfsDigest.hexDigit (b.toNat / 16), CvmfsDigest.hexDigit (b.toNat % 16)]) = hex := by
  fun_induction unhex hex generalizing bytes with
  | case1 =>
    cases h
    rfl
  | case2 => cases h
  | case3 hi lo rest a b bs hrest hhi hlo ih =>
    cases h
    obtain ⟨ha, hhi⟩ := hexval_eq_some hhi
    obtain ⟨hb, hlo⟩ := hexval_eq_some hlo
    have hbyte : (UInt8.ofNat (a * 16 + b)).toNat = a * 16 + b :=
      UInt8.toNat_ofNat_of_lt' (by rw [UInt8.size]; omega)
    have hdiv : (a * 16 + b) / 16 = a := by omega
    have hmod : (a * 16 + b) % 16 = b := by omega
    rw [flatMap_cons, hbyte, hdiv, hmod, hhi, hlo, ih hrest]
    rfl
  | case4 => cases h

theorem parse_eq_sha1 {hex : Bytes} {d : CvmfsDigest} (h : parse hex = some ⟨.sha1, d⟩) :
    hex = d.hex := by
  have hof : ∀ {algo : CvmfsHashAlgo} {hex : Bytes} {g : CvmfsHash},
      ofHex algo hex = some g → g.algo = algo ∧ hex = g.digest.hex := by
    intro algo hex g hg
    rw [ofHex] at hg
    split at hg
    · cases hg
    · rename_i bytes hbytes
      split at hg
      · cases hg
        exact ⟨rfl, (unhex_eq_some hbytes).symm⟩
      · cases hg
  rw [parse] at h
  split at h
  · split at h
    · cases (hof h).1
    · split at h
      · cases (hof h).1
      · cases h
  · exact (hof h).2

end CvmfsHash

theorem gcParseName_casName (k : CvmfsKey) :
    gcParseName (casName k).1 (casName k).2 = some k := by
  obtain ⟨d, suffix⟩ := k
  have hlen := CvmfsHash.length_hex d
  have hdrop : (d.hex.drop 2).length = 38 := by
    rw [length_drop, hlen]
  have htake : ((d.hex.drop 2 ++ if suffix = 0 then [] else [suffix]).take 38) = d.hex.drop 2 :=
    take_left' hdrop
  have hhex : d.hex.take 2 ++ d.hex.drop 2 = d.hex := take_append_drop 2 d.hex
  rw [casName, gcParseName, htake, hhex, CvmfsHash.parse_hex, length_append, hdrop]
  by_cases hz : suffix = 0
  · rw [if_pos hz, hz]
    rfl
  · have hget : (d.hex.drop 2 ++ [suffix]).getD 38 0 = suffix := by
      rw [getD_eq_getElem?_getD, getElem?_append_right (by omega), hdrop]
      rfl
    rw [if_neg hz, hget]
    rfl

end BrixCache
