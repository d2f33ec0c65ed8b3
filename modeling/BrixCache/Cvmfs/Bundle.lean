import BrixCache.Core.Ascii
import BrixCache.Lib.Wire

/-!
# Bundles of objects

`shared/cvmfs/bundle/bundle.c`: many small objects in one stream, each behind its path and its
length, with a length that stands for an object that is not included. The reader goes over the
stream with an offset into it and gives each object as spans of the stream.
-/

namespace BrixCache

open List

def bundleMagic : Bytes := ascii "BXB1"

def bundleHdrLen : ℕ := 8

def bundleMiss : UInt64 := 18446744073709551615

def bundleMaxItems : ℕ := 512

def bundleMaxPath : ℕ := 512

def bundleMaxObj : ℕ := 8388608

/-! ## Words -/

/-- Little end first. -/
def bundlePutU32 (v : UInt32) : Bytes :=
  [v.toUInt8, (v >>> 8).toUInt8, (v >>> 16).toUInt8, (v >>> 24).toUInt8]

def bundlePutU64 (v : UInt64) : Bytes :=
  bundlePutU32 v.toUInt32 ++ bundlePutU32 (v >>> 32).toUInt32

/-- `cvmfs_bundle_get_u32` of the bytes from an offset on -/
def bundleGetU32 (bs : Bytes) (p : ℕ) : UInt32 :=
  (bs.getD p 0).toUInt32 ||| (bs.getD (p + 1) 0).toUInt32 <<< 8 |||
    (bs.getD (p + 2) 0).toUInt32 <<< 16 ||| (bs.getD (p + 3) 0).toUInt32 <<< 24

def bundleGetU64 (bs : Bytes) (p : ℕ) : UInt64 :=
  (bundleGetU32 bs p).toUInt64 ||| (bundleGetU32 bs (p + 4)).toUInt64 <<< 32

/-! ## Writing -/

def bundleHdrEncode (itemCount : UInt32) : Bytes := bundleMagic ++ bundlePutU32 itemCount

/-- `cvmfs_bundle_item_encode` into a buffer of so many bytes -/
def bundleItemEncode (cap : ℕ) (path : Bytes) (dataLen : UInt64) : Option Bytes :=
  if path.length = 0 ∨ bundleMaxPath < path.length ∨ cap < 4 + path.length + 8 then none
  else some (bundlePutU32 (UInt32.ofNat path.length) ++ path ++ bundlePutU64 dataLen)

/-- An object of a bundle: its path, and its bytes unless it is not included -/
abbrev BundleMember : Type := Bytes × Option Bytes

/-- What is written for an object -/
def bundleMemberEncode (cap : ℕ) (x : BundleMember) : Option Bytes :=
  match x.2 with
  | none => bundleItemEncode cap x.1 bundleMiss
  | some data =>
    (bundleItemEncode cap x.1 (UInt64.ofNat data.length)).map fun hdr => hdr ++ data

/-- The bundle of a list of members. -/
def bundleStream (cap : ℕ) (xs : List BundleMember) : Option Bytes :=
  (xs.mapM (bundleMemberEncode cap)).map fun items =>
    bundleHdrEncode (UInt32.ofNat xs.length) ++ items.flatten

/-! ## Reading -/

/-- `cvmfs_bundle_item_t`, with the pointers as offsets into the stream -/
structure BundleItem : Type where
  path : ℕ
  pathLen : ℕ
  data : Option ℕ
  dataLen : ℕ
  miss : Bool
  deriving DecidableEq

/-- `cvmfs_bundle_iter_t`, with the cursor as an offset into the stream -/
structure BundleIter : Type where
  p : ℕ
  n : ℕ
  remaining : UInt32
  deriving DecidableEq

/-- The header of a bundle, at most 512 items. -/
def bundleIterInit (bs : Bytes) : Option BundleIter :=
  if bs.length < bundleHdrLen ∨ bs.take 4 ≠ bundleMagic then none
  else
    let remaining := bundleGetU32 bs 4
    if bundleMaxItems < remaining.toNat then none
    else some ⟨bundleHdrLen, bs.length - bundleHdrLen, remaining⟩

/-- What `cvmfs_bundle_next` returns: an item, the end, or that the stream is malformed -/
inductive BundleNext : Type where
  | item (it : BundleIter) (item : BundleItem)
  | done
  | malformed
  deriving DecidableEq

/-- The next item, the end or a fault. -/
def bundleNext (bs : Bytes) (it : BundleIter) : BundleNext :=
  if it.remaining = 0 then
    if it.n = 0 then .done else .malformed
  else if it.n < 4 then .malformed
  else
    let plen := (bundleGetU32 bs it.p).toNat
    if plen = 0 ∨ bundleMaxPath < plen ∨ it.n < 4 + plen + 8 then .malformed
    else
      let path := it.p + 4
      let dlen := bundleGetU64 bs (it.p + 4 + plen)
      let p := it.p + (4 + plen + 8)
      let n := it.n - (4 + plen + 8)
      if dlen = bundleMiss then
        .item ⟨p, n, it.remaining - 1⟩ ⟨path, plen, none, 0, true⟩
      else if bundleMaxObj < dlen.toNat ∨ n < dlen.toNat then .malformed
      else
        .item ⟨p + dlen.toNat, n - dlen.toNat, it.remaining - 1⟩
          ⟨path, plen, some p, dlen.toNat, false⟩

/-- The items up to the end of the iteration, and whether the end is a clean one, with so many calls
of `cvmfs_bundle_next` -/
def bundleRead (bs : Bytes) : ℕ → BundleIter → Option (List BundleItem × Bool)
  | 0, _ => none
  | calls + 1, it =>
    match bundleNext bs it with
    | .done => some ([], true)
    | .malformed => some ([], false)
    | .item it item => (bundleRead bs calls it).map fun r => (item :: r.1, r.2)

/-- Path and data an item points at. -/
def BundleItem.member (bs : Bytes) (item : BundleItem) : BundleMember :=
  ((bs.drop item.path).take item.pathLen,
    item.data.map fun data => (bs.drop data).take item.dataLen)

/-- The spans of the input an item claims. -/
def BundleItem.spans (item : BundleItem) : List (ℕ × ℕ) :=
  (item.path, item.pathLen) :: (item.data.map fun data => (data, item.dataLen)).toList

/-! ## Words are read as they were written -/

theorem bundlePutU32_eq (v : UInt32) : bundlePutU32 v = leBytes 4 v.toNat := by
  have hbyte : ∀ x : ℕ, UInt8.ofNat (x % 256) = UInt8.ofNat x := fun x => by
    apply UInt8.toNat_inj.mp
    rw [UInt8.toNat_ofNat', UInt8.toNat_ofNat']
    omega
  have hcell : ∀ w : UInt32, w.toUInt8 = UInt8.ofNat w.toNat := fun w => by
    apply UInt8.toNat_inj.mp
    rw [UInt32.toNat_toUInt8, UInt8.toNat_ofNat']
  simp only [bundlePutU32, leBytes, hbyte, hcell, UInt32.toNat_shiftRight,
    Nat.shiftRight_eq_div_pow, Nat.div_div_eq_div_mul]
  rfl

theorem leBytes_add (m n x : ℕ) : leBytes (m + n) x = leBytes m x ++ leBytes n (x / 256 ^ m) := by
  induction m generalizing x with
  | zero => simp [leBytes]
  | succ m ih =>
    rw [Nat.succ_add, leBytes, leBytes, ih, cons_append, Nat.pow_succ', Nat.div_div_eq_div_mul]

theorem leBytes_mod (n x : ℕ) : leBytes n (x % 256 ^ n) = leBytes n x := by
  have h := leBytes_leNat (leBytes n x)
  rwa [leBytes_length, leNat_leBytes] at h

theorem bundlePutU64_eq (v : UInt64) : bundlePutU64 v = leBytes 8 v.toNat := by
  have hsplit := leBytes_add 4 4 v.toNat
  rw [bundlePutU64, bundlePutU32_eq, bundlePutU32_eq, hsplit, UInt64.toNat_toUInt32,
    UInt64.toNat_toUInt32, UInt64.toNat_shiftRight, Nat.shiftRight_eq_div_pow]
  have h := leBytes_mod 4 v.toNat
  have h' := leBytes_mod 4 (v.toNat / 256 ^ 4)
  exact congrArg₂ _ h h'

theorem or_shiftLeft {x y i w : ℕ} (hx : x < 2 ^ i) (hy : y * 2 ^ i < 2 ^ w) :
    x ||| y <<< i % 2 ^ w = x + y * 2 ^ i := by
  rw [Nat.shiftLeft_eq, Nat.mod_eq_of_lt hy, ← Nat.shiftLeft_eq, Nat.or_comm,
    ← Nat.shiftLeft_add_eq_or_of_lt hx, Nat.shiftLeft_eq, Nat.add_comm]

theorem bundleGetU32_eq (bs : Bytes) (p : ℕ) (h : p + 4 ≤ bs.length) :
    (bundleGetU32 bs p).toNat = leNat ((bs.drop p).take 4) := by
  obtain ⟨a, b, c, d, rest, hdrop⟩ : ∃ a b c d rest, bs.drop p = a :: b :: c :: d :: rest := by
    have hlen : 4 ≤ (bs.drop p).length := by
      rw [length_drop]
      omega
    match hrest : bs.drop p, hlen with
    | a :: b :: c :: d :: rest, _ => exact ⟨a, b, c, d, rest, rfl⟩
  have hget : ∀ i, bs.getD (p + i) 0 = (bs.drop p).getD i 0 := fun i => by
    rw [getD_eq_getElem?_getD, getD_eq_getElem?_getD, getElem?_drop]
  have hword : bundleGetU32 bs p = a.toUInt32 ||| b.toUInt32 <<< 8 ||| c.toUInt32 <<< 16 |||
      d.toUInt32 <<< 24 := by
    rw [bundleGetU32, hget 1, hget 2, hget 3]
    have h0 := hget 0
    rw [Nat.add_zero] at h0
    rw [h0, hdrop]
    rfl
  have ha := a.toNat_lt
  have hb := b.toNat_lt
  have hc := c.toNat_lt
  have hd := d.toNat_lt
  rw [hword, hdrop]
  simp only [UInt32.toNat_or, UInt32.toNat_shiftLeft, UInt8.toNat_toUInt32, take_succ_cons,
    take_zero, leNat]
  have h8 : UInt32.toNat 8 % 32 = 8 := rfl
  have h16 : UInt32.toNat 16 % 32 = 16 := rfl
  have h24 : UInt32.toNat 24 % 32 = 24 := rfl
  rw [h8, h16, h24, or_shiftLeft ha (by omega),
    or_shiftLeft (x := a.toNat + b.toNat * 2 ^ 8) (y := c.toNat) (by omega) (by omega),
    or_shiftLeft (x := a.toNat + b.toNat * 2 ^ 8 + c.toNat * 2 ^ 16) (by omega) (by omega)]
  omega

theorem bundleGetU64_eq (bs : Bytes) (p : ℕ) (h : p + 8 ≤ bs.length) :
    (bundleGetU64 bs p).toNat = leNat ((bs.drop p).take 8) := by
  have hlow := bundleGetU32_eq bs p (by omega)
  have hhigh := bundleGetU32_eq bs (p + 4) (by omega)
  have hlowlt := (bundleGetU32 bs p).toNat_lt
  have hhighlt := (bundleGetU32 bs (p + 4)).toNat_lt
  have hsplit : (bs.drop p).take 8 = (bs.drop p).take 4 ++ (bs.drop (p + 4)).take 4 := by
    rw [← drop_drop, ← take_add]
  have hlen : ((bs.drop p).take 4).length = 4 := by
    rw [length_take, length_drop]
    omega
  have hnat : ∀ xs ys : Bytes, leNat (xs ++ ys) = leNat xs + 256 ^ xs.length * leNat ys := by
    intro xs ys
    induction xs with
    | nil => simp [leNat]
    | cons x xs ih =>
      rw [cons_append, leNat, leNat, ih, length_cons, Nat.pow_succ', Nat.mul_add,
        Nat.mul_assoc, Nat.add_assoc]
  have h32 : UInt64.toNat 32 % 64 = 32 := rfl
  rw [bundleGetU64, UInt64.toNat_or, UInt64.toNat_shiftLeft, UInt32.toNat_toUInt64,
    UInt32.toNat_toUInt64, h32, or_shiftLeft hlowlt (by omega), hsplit, hnat, hlen, hlow, hhigh]
  omega

theorem bundleGetU32_put {bs rest : Bytes} {p : ℕ} {v : UInt32}
    (h : bs.drop p = bundlePutU32 v ++ rest) (hp : p ≤ bs.length) : bundleGetU32 bs p = v := by
  have hput := bundlePutU32_eq v
  have hlen : p + 4 ≤ bs.length := by
    have := congrArg length h
    rw [length_drop, length_append, hput, leBytes_length] at this
    omega
  have htake : (bundlePutU32 v ++ rest).take 4 = leBytes 4 v.toNat := by
    rw [hput]
    exact take_left' (leBytes_length _ _)
  apply UInt32.toNat_inj.mp
  rw [bundleGetU32_eq bs p hlen, h, htake]
  exact leNat_leBytes_of_lt v.toNat_lt

theorem bundleGetU64_put {bs rest : Bytes} {p : ℕ} {v : UInt64}
    (h : bs.drop p = bundlePutU64 v ++ rest) (hp : p ≤ bs.length) : bundleGetU64 bs p = v := by
  have hput := bundlePutU64_eq v
  have hlen : p + 8 ≤ bs.length := by
    have := congrArg length h
    rw [length_drop, length_append, hput, leBytes_length] at this
    omega
  have htake : (bundlePutU64 v ++ rest).take 8 = leBytes 8 v.toNat := by
    rw [hput]
    exact take_left' (leBytes_length _ _)
  apply UInt64.toNat_inj.mp
  rw [bundleGetU64_eq bs p hlen, h, htake]
  exact leNat_leBytes_of_lt v.toNat_lt

theorem bundlePutU32_get (bs : Bytes) (p : ℕ) (h : p + 4 ≤ bs.length) :
    bundlePutU32 (bundleGetU32 bs p) = (bs.drop p).take 4 := by
  have hlen : ((bs.drop p).take 4).length = 4 := by
    rw [length_take, length_drop]
    omega
  have hback := leBytes_leNat ((bs.drop p).take 4)
  rw [hlen] at hback
  rw [bundlePutU32_eq, bundleGetU32_eq bs p h, hback]

theorem bundlePutU64_get (bs : Bytes) (p : ℕ) (h : p + 8 ≤ bs.length) :
    bundlePutU64 (bundleGetU64 bs p) = (bs.drop p).take 8 := by
  have hlen : ((bs.drop p).take 8).length = 8 := by
    rw [length_take, length_drop]
    omega
  have hback := leBytes_leNat ((bs.drop p).take 8)
  rw [hlen] at hback
  rw [bundlePutU64_eq, bundleGetU64_eq bs p h, hback]

end BrixCache

/-! ## A bundle is read back -/

namespace BrixCache

open List

variable {bs rest : Bytes} {it it' : BundleIter} {item : BundleItem} {x : BundleMember}
  {cap calls : ℕ}

/-- An object that can be in a bundle -/
structure BundleMember.Fits (x : BundleMember) : Prop where
  path_pos : 0 < x.1.length
  path_le : x.1.length ≤ bundleMaxPath
  data_le : ∀ data ∈ x.2, data.length ≤ bundleMaxObj

/-- The length that is written for an object -/
def bundleDataLen (x : BundleMember) : UInt64 :=
  match x.2 with
  | none => bundleMiss
  | some data => UInt64.ofNat data.length

def bundleMemberBytes (x : BundleMember) : Bytes :=
  bundlePutU32 (UInt32.ofNat x.1.length) ++ (x.1 ++ (bundlePutU64 (bundleDataLen x) ++ x.2.getD []))

theorem take_append_drop_add (bs : Bytes) (n m : ℕ) :
    (bs.drop n).take m ++ bs.drop (n + m) = bs.drop n := by
  rw [← drop_drop, take_append_drop]

theorem length_bundlePutU32 (v : UInt32) : (bundlePutU32 v).length = 4 := rfl

theorem length_bundlePutU64 (v : UInt64) : (bundlePutU64 v).length = 8 := rfl

theorem length_bundleMemberBytes (x : BundleMember) :
    (bundleMemberBytes x).length = 4 + x.1.length + 8 + (x.2.getD []).length := by
  simp only [bundleMemberBytes, length_append, length_bundlePutU32, length_bundlePutU64]
  omega

theorem bundleMemberEncode_eq (hx : x.Fits) (hcap : 4 + x.1.length + 8 ≤ cap) :
    bundleMemberEncode cap x = some (bundleMemberBytes x) := by
  have hpos := hx.path_pos
  have hle := hx.path_le
  have hno : ¬(x.1.length = 0 ∨ bundleMaxPath < x.1.length ∨ cap < 4 + x.1.length + 8) := by omega
  obtain ⟨path, data⟩ := x
  cases data with
  | none | some data =>
    rw [bundleMemberEncode]
    dsimp only
    rw [bundleItemEncode, if_neg hno]
    simp [bundleMemberBytes, bundleDataLen]

/-! ### One object -/

theorem toNat_bundleDataLen (hx : x.Fits) {data : Bytes} (hdata : x.2 = some data) :
    (bundleDataLen x).toNat = data.length ∧ bundleDataLen x ≠ bundleMiss := by
  have hle := hx.data_le data hdata
  rw [bundleMaxObj] at hle
  have hnat : (bundleDataLen x).toNat = data.length := by
    rw [bundleDataLen, hdata]
    exact UInt64.toNat_ofNat_of_lt' (by simp [UInt64.size]; omega)
  refine ⟨hnat, fun he => ?_⟩
  have hmiss : bundleMiss.toNat = 18446744073709551615 := rfl
  rw [he, hmiss] at hnat
  omega

/-- The iterator at a member gives it. -/
theorem bundleNext_member (hx : x.Fits) (hlen : it.p + it.n = bs.length)
    (hdrop : bs.drop it.p = bundleMemberBytes x ++ rest) (hrem : it.remaining ≠ 0) :
    ∃ item, bundleNext bs it = .item ⟨it.p + (bundleMemberBytes x).length,
        it.n - (bundleMemberBytes x).length, it.remaining - 1⟩ item ∧
      item.member bs = x ∧ item.miss = item.data.isNone := by
  obtain ⟨path, data⟩ := x
  have hpos := hx.path_pos
  have hple := hx.path_le
  have hbytes := length_bundleMemberBytes (path, data)
  have htotal : it.n = 4 + path.length + 8 + (data.getD []).length + rest.length := by
    have := congrArg length hdrop
    rw [length_drop, length_append, hbytes] at this
    dsimp only at this
    omega
  have hplen : (bundleGetU32 bs it.p).toNat = path.length := by
    rw [bundleMemberBytes, append_assoc] at hdrop
    rw [bundleGetU32_put hdrop (by omega)]
    dsimp only at hple
    rw [bundleMaxPath] at hple
    exact UInt32.toNat_ofNat_of_lt' (by simp [UInt32.size]; omega)
  -- what lies behind each part
  have hpath : bs.drop (it.p + 4) =
      path ++ (bundlePutU64 (bundleDataLen (path, data)) ++ data.getD []) ++ rest := by
    rw [← drop_drop, hdrop, bundleMemberBytes, append_assoc]
    exact drop_left' (length_bundlePutU32 _)
  have hdlen : bs.drop (it.p + 4 + path.length) =
      bundlePutU64 (bundleDataLen (path, data)) ++ (data.getD [] ++ rest) := by
    rw [← drop_drop, hpath, append_assoc, drop_left, append_assoc]
  have hdata : bs.drop (it.p + (4 + path.length + 8)) = data.getD [] ++ rest := by
    have hsum : it.p + (4 + path.length + 8) = it.p + 4 + path.length + 8 := by omega
    rw [hsum, ← drop_drop, hdlen]
    exact drop_left' (length_bundlePutU64 _)
  have hget : bundleGetU64 bs (it.p + 4 + path.length) = bundleDataLen (path, data) :=
    bundleGetU64_put hdlen (by omega)
  have hno : ¬(path.length = 0 ∨ bundleMaxPath < path.length ∨ it.n < 4 + path.length + 8) := by
    dsimp only at hpos hple
    omega
  have hn : ¬it.n < 4 := by omega
  rw [bundleNext, if_neg hrem, if_neg hn]
  dsimp only
  rw [hplen, if_neg hno, hget]
  have hspan : (bs.drop (it.p + 4)).take path.length = path := by
    rw [hpath, append_assoc, take_left]
  cases data with
  | none =>
    have hmiss : bundleDataLen (path, none) = bundleMiss := rfl
    rw [if_pos hmiss]
    rw [Option.getD_none, length_nil, Nat.add_zero] at hbytes
    refine ⟨⟨it.p + 4, path.length, none, 0, true⟩, ?_, ?_, rfl⟩
    · rw [hbytes]
    · simp [BundleItem.member, hspan]
  | some data =>
    obtain ⟨hnat, hmiss⟩ := toNat_bundleDataLen hx rfl
    have hobj := hx.data_le data rfl
    rw [Option.getD_some] at hbytes htotal hdata
    have hroom : ¬(bundleMaxObj < data.length ∨ it.n - (4 + path.length + 8) < data.length) := by
      omega
    rw [if_neg hmiss, hnat, if_neg hroom]
    refine ⟨⟨it.p + 4, path.length, some (it.p + (4 + path.length + 8)), data.length, false⟩, ?_, ?_,
      rfl⟩
    · rw [hbytes]
      congr 2
      · dsimp only
        omega
      · dsimp only
        omega
    · simp only [BundleItem.member, Option.map_some, hspan, hdata]
      rw [take_left]

/-- A member that was read, and the iterator behind it -/
structure BundleRead (bs : Bytes) (it it' : BundleIter) (item : BundleItem) : Prop where
  fits : (item.member bs).Fits
  bytes : bs.drop it.p = bundleMemberBytes (item.member bs) ++ bs.drop it'.p
  length : it'.p + it'.n = bs.length
  remaining : it.remaining ≠ 0 ∧ it'.remaining = it.remaining - 1
  miss : item.miss = item.data.isNone
  inside : ∀ s ∈ item.spans, it.p ≤ s.1 ∧ s.1 + s.2 ≤ it'.p
  ordered : item.spans.Pairwise fun s t => s.1 + s.2 ≤ t.1

/-- Where the iterator gives an item, a member is there. -/
theorem bundleNext_item (hlen : it.p + it.n = bs.length) (h : bundleNext bs it = .item it' item) :
    BundleRead bs it it' item := by
  rw [bundleNext] at h
  split at h
  · split at h <;> cases h
  · next hrem =>
    split at h
    · cases h
    · next hn =>
      dsimp only at h
      generalize hplen : (bundleGetU32 bs it.p).toNat = plen at h
      split at h
      · cases h
      · next hbound =>
        obtain ⟨hpos, hle, hroom⟩ : plen ≠ 0 ∧ plen ≤ bundleMaxPath ∧ 4 + plen + 8 ≤ it.n := by
          omega
        have hword := bundlePutU32_get bs it.p (by omega)
        have hdword := bundlePutU64_get bs (it.p + 4 + plen) (by omega)
        have hpathlen : ((bs.drop (it.p + 4)).take plen).length = plen := by
          rw [length_take, length_drop]
          omega
        have hplen' : UInt32.ofNat plen = bundleGetU32 bs it.p := by
          rw [← hplen, UInt32.ofNat_toNat]
        -- the stream from the cursor on, cut where the parts of the object end
        have hcut : bs.drop it.p = bundlePutU32 (UInt32.ofNat plen) ++
            ((bs.drop (it.p + 4)).take plen ++
              (bundlePutU64 (bundleGetU64 bs (it.p + 4 + plen)) ++
                bs.drop (it.p + (4 + plen + 8)))) := by
          have hsum : it.p + (4 + plen + 8) = it.p + 4 + plen + 8 := by omega
          rw [hplen', hword, hdword, hsum, take_append_drop_add, take_append_drop_add,
            take_append_drop_add]
        split at h
        · next hmiss =>
          obtain ⟨rfl, rfl⟩ := BundleNext.item.inj h
          refine ⟨⟨?_, ?_, fun _ hd => by cases hd⟩, ?_, ?_, ⟨hrem, rfl⟩, rfl, ?_, ?_⟩
          · change 0 < ((bs.drop (it.p + 4)).take plen).length
            omega
          · change ((bs.drop (it.p + 4)).take plen).length ≤ _
            omega
          · rw [hcut, hmiss]
            simp [bundleMemberBytes, BundleItem.member, bundleDataLen, hpathlen]
          · dsimp only
            omega
          · simp only [BundleItem.spans, Option.map_none, Option.toList_none, mem_singleton]
            rintro s rfl
            dsimp only
            omega
          · exact pairwise_singleton _ _
        · next hmiss =>
          split at h
          · cases h
          · next hobj =>
            obtain ⟨rfl, rfl⟩ := BundleNext.item.inj h
            generalize hdlen : bundleGetU64 bs (it.p + 4 + plen) = dlen at *
            obtain ⟨hole, hdroom⟩ : dlen.toNat ≤ bundleMaxObj ∧
                dlen.toNat ≤ it.n - (4 + plen + 8) := by omega
            have hdatalen : ((bs.drop (it.p + (4 + plen + 8))).take dlen.toNat).length =
                dlen.toNat := by
              rw [length_take, length_drop]
              omega
            refine ⟨⟨?_, ?_, fun data hd => ?_⟩, ?_, ?_, ⟨hrem, rfl⟩, rfl, ?_, ?_⟩
            · change 0 < ((bs.drop (it.p + 4)).take plen).length
              omega
            · change ((bs.drop (it.p + 4)).take plen).length ≤ _
              omega
            · cases hd
              change ((bs.drop (it.p + (4 + plen + 8))).take dlen.toNat).length ≤ _
              omega
            · have hback : UInt64.ofNat dlen.toNat = dlen := UInt64.ofNat_toNat
              rw [hcut]
              simp only [bundleMemberBytes, BundleItem.member, bundleDataLen, Option.map_some,
                hpathlen, hdatalen, hback, Option.getD_some, append_assoc]
              rw [take_append_drop_add]
            · dsimp only
              omega
            · simp only [BundleItem.spans, Option.map_some, Option.toList_some, mem_cons,
                not_mem_nil, or_false]
              rintro s (rfl | rfl) <;> dsimp only <;> omega
            · simp only [BundleItem.spans, Option.map_some, Option.toList_some,
                pairwise_cons, mem_singleton]
              refine ⟨?_, by simp⟩
              rintro t rfl
              dsimp only
              omega

/-! ### The whole iteration -/

theorem toNat_sub_one {v : UInt32} (h : v ≠ 0) : (v - 1).toNat + 1 = v.toNat := by
  have hpos : v.toNat ≠ 0 := fun he => h (UInt32.toNat_inj.mp he)
  have hone : (1 : UInt32) ≤ v := by
    rw [UInt32.le_iff_toNat_le]
    change 1 ≤ v.toNat
    omega
  rw [UInt32.toNat_sub_of_le v 1 hone]
  change v.toNat - 1 + 1 = v.toNat
  omega

/-- The iterator gives the members, in order. -/
theorem bundleRead_members {xs : List BundleMember} (hxs : ∀ x ∈ xs, x.Fits)
    (hlen : it.p + it.n = bs.length) (hrem : it.remaining.toNat = xs.length)
    (hdrop : bs.drop it.p = xs.flatMap bundleMemberBytes) :
    ∃ items, bundleRead bs (it.remaining.toNat + 1) it = some (items, true) ∧
      items.map (BundleItem.member bs) = xs ∧ ∀ item ∈ items, item.miss = item.data.isNone := by
  induction xs generalizing it with
  | nil =>
    have hzero : it.remaining = 0 := UInt32.toNat_inj.mp hrem
    have hn : it.n = 0 := by
      have := congrArg length hdrop
      rw [length_drop] at this
      simp only [flatMap_nil, length_nil] at this
      omega
    refine ⟨[], ?_, rfl, by simp⟩
    rw [bundleRead, bundleNext, if_pos hzero, if_pos hn]
  | cons x xs ih =>
    have hne : it.remaining ≠ 0 := fun he => by
      rw [he] at hrem
      cases hrem
    rw [flatMap_cons] at hdrop
    obtain ⟨item, hnext, hmember, hmiss⟩ := bundleNext_member (hxs x mem_cons_self) hlen hdrop hne
    have hsub := toNat_sub_one hne
    have hfit : (bundleMemberBytes x).length ≤ it.n := by
      have := congrArg length hdrop
      rw [length_drop, length_append] at this
      omega
    generalize hit : (⟨it.p + (bundleMemberBytes x).length, it.n - (bundleMemberBytes x).length,
      it.remaining - 1⟩ : BundleIter) = it' at hnext
    have hlen' : it'.p + it'.n = bs.length := by
      rw [← hit]
      dsimp only
      omega
    have hrem' : it'.remaining.toNat + 1 = it.remaining.toNat := by
      rw [← hit]
      exact hsub
    have hdrop' : bs.drop it'.p = xs.flatMap bundleMemberBytes := by
      rw [← hit, ← drop_drop, hdrop, drop_left]
    obtain ⟨items, hread, hmap, hall⟩ := ih (fun y hy => hxs y (mem_cons_of_mem _ hy)) hlen'
      (by rw [length_cons] at hrem; omega) hdrop'
    refine ⟨item :: items, ?_, by rw [map_cons, hmember, hmap], fun i hi => ?_⟩
    · rw [bundleRead, hnext, ← hrem']
      dsimp only
      rw [hread]
      rfl
    · rcases mem_cons.mp hi with rfl | hi
      · exact hmiss
      · exact hall i hi

/-- **Any stream** is read to an end, with spans inside it and in order, and to a clean end only if
it is what was read. -/
theorem bundleRead_total (hlen : it.p + it.n = bs.length) :
    ∃ items clean, bundleRead bs (it.remaining.toNat + 1) it = some (items, clean) ∧
      (∀ item ∈ items, (item.member bs).Fits ∧ item.miss = item.data.isNone) ∧
      (∀ s ∈ items.flatMap BundleItem.spans, it.p ≤ s.1 ∧ s.1 + s.2 ≤ bs.length) ∧
      (items.flatMap BundleItem.spans).Pairwise (fun s t => s.1 + s.2 ≤ t.1) ∧
      (clean = true → items.length = it.remaining.toNat ∧
        bs.drop it.p = (items.map (BundleItem.member bs)).flatMap bundleMemberBytes) := by
  induction hrem : it.remaining.toNat generalizing it with
  | zero =>
    have hzero : it.remaining = 0 := UInt32.toNat_inj.mp hrem
    have hnext : bundleNext bs it = if it.n = 0 then .done else .malformed := by
      rw [bundleNext, if_pos hzero]
    by_cases hn : it.n = 0
    · refine ⟨[], true, ?_, by simp, by simp, .nil, fun _ => ⟨rfl, ?_⟩⟩
      · rw [bundleRead, hnext, if_pos hn]
      · simp only [map_nil, flatMap_nil, drop_eq_nil_iff]
        omega
    · refine ⟨[], false, ?_, by simp, by simp, .nil, fun h => by cases h⟩
      rw [bundleRead, hnext, if_neg hn]
  | succ calls ih =>
    cases hnext : bundleNext bs it with
    | done =>
      rw [bundleNext] at hnext
      have hne : it.remaining ≠ 0 := fun he => by
        rw [he] at hrem
        cases hrem
      rw [if_neg hne] at hnext
      dsimp only at hnext
      split at hnext
      · cases hnext
      · split at hnext
        · cases hnext
        · split at hnext
          · cases hnext
          · split at hnext <;> cases hnext
    | malformed =>
      refine ⟨[], false, ?_, by simp, by simp, .nil, fun h => by cases h⟩
      rw [bundleRead, hnext]
    | item it' item =>
      have hone := bundleNext_item hlen hnext
      have hsub := toNat_sub_one hone.remaining.1
      obtain ⟨items, clean, hread, hfits, hinside, hordered, hclean⟩ := ih hone.length
        (by rw [hone.remaining.2]; omega)
      have hmove : it.p ≤ it'.p ∧ it'.p ≤ bs.length := by
        have hspan := hone.inside (item.path, item.pathLen) mem_cons_self
        have := hone.length
        dsimp only at hspan
        omega
      refine ⟨item :: items, clean, ?_, fun i hi => ?_, fun s hs => ?_, ?_, fun hc => ?_⟩
      · rw [bundleRead, hnext]
        dsimp only
        rw [hread]
        rfl
      · rcases mem_cons.mp hi with rfl | hi
        · exact ⟨hone.fits, hone.miss⟩
        · exact hfits i hi
      · rw [flatMap_cons] at hs
        rcases mem_append.mp hs with hs | hs
        · have := hone.inside s hs
          omega
        · have := hinside s hs
          omega
      · rw [flatMap_cons, pairwise_append]
        refine ⟨hone.ordered, hordered, fun s hs t ht => ?_⟩
        have := hone.inside s hs
        have := hinside t ht
        omega
      · obtain ⟨hcount, hrest⟩ := hclean hc
        rw [length_cons, map_cons, flatMap_cons, hone.bytes, hrest]
        exact ⟨by omega, rfl⟩

/-! ### The stream -/

theorem bundleStream_eq {xs : List BundleMember}
    (hxs : ∀ x ∈ xs, x.Fits ∧ 4 + x.1.length + 8 ≤ cap) :
    bundleStream cap xs =
      some (bundleHdrEncode (UInt32.ofNat xs.length) ++ xs.flatMap bundleMemberBytes) := by
  have hmap : xs.mapM (bundleMemberEncode cap) = some (xs.map bundleMemberBytes) := by
    induction xs with
    | nil => rfl
    | cons x xs ih =>
      obtain ⟨hx, hcap⟩ := hxs x mem_cons_self
      rw [mapM_cons, bundleMemberEncode_eq hx hcap,
        ih fun y hy => hxs y (mem_cons_of_mem _ hy)]
      rfl
  rw [bundleStream, hmap, Option.map_some, flatMap_def]

theorem length_bundleHdrEncode (v : UInt32) : (bundleHdrEncode v).length = 8 := rfl

theorem bundleIterInit_stream {v : UInt32} (hv : v.toNat ≤ bundleMaxItems) (rest : Bytes) :
    bundleIterInit (bundleHdrEncode v ++ rest) = some ⟨8, rest.length, v⟩ := by
  have hlen : (bundleHdrEncode v ++ rest).length = 8 + rest.length := by
    rw [length_append, length_bundleHdrEncode]
  have hmagic : (bundleHdrEncode v ++ rest).take 4 = bundleMagic := rfl
  have hdrop : (bundleHdrEncode v ++ rest).drop 4 = bundlePutU32 v ++ rest := rfl
  have hget := bundleGetU32_put hdrop (by omega)
  have hno : ¬((bundleHdrEncode v ++ rest).length < bundleHdrLen ∨
      (bundleHdrEncode v ++ rest).take 4 ≠ bundleMagic) := by
    rw [hlen, hmagic, bundleHdrLen]
    simp
  rw [bundleIterInit, if_neg hno]
  dsimp only
  rw [hget, if_neg (by omega), hlen, bundleHdrLen, Nat.add_sub_cancel_left]

theorem bundleIterInit_eq_some (h : bundleIterInit bs = some it) :
    it.p = 8 ∧ it.p + it.n = bs.length ∧ it.remaining.toNat ≤ bundleMaxItems ∧
      bs = bundleHdrEncode it.remaining ++ bs.drop 8 := by
  rw [bundleIterInit] at h
  split at h
  · cases h
  · next hbad =>
    obtain ⟨hlen, hmagic⟩ : bundleHdrLen ≤ bs.length ∧ bs.take 4 = bundleMagic := by
      rw [not_or, Nat.not_lt] at hbad
      exact ⟨hbad.1, not_not.mp hbad.2⟩
    rw [bundleHdrLen] at hlen
    dsimp only at h
    split at h
    · cases h
    · next hmany =>
      cases h
      refine ⟨rfl, ?_, Nat.le_of_not_lt hmany, ?_⟩
      · rw [bundleHdrLen]
        dsimp only
        omega
      · have hword := bundlePutU32_get bs 4 (by omega)
        have hcut := take_append_drop_add bs 4 4
        rw [bundleHdrEncode, hword, ← hmagic, append_assoc, hcut, take_append_drop]

/-- **The bundle codec**: a list of objects is read back from its stream as exactly that list and a
clean end, and any byte string is read to an end, with spans that are inside it, disjoint and in
order, and to a clean end only if it is the stream of what was read. -/
theorem bundle_round_trip :
    (∀ cap xs, xs.length ≤ bundleMaxItems →
      (∀ x ∈ xs, BundleMember.Fits x ∧ 4 + x.1.length + 8 ≤ cap) →
      ∃ bs it items, bundleStream cap xs = some bs ∧ bundleIterInit bs = some it ∧
        bundleRead bs (it.remaining.toNat + 1) it = some (items, true) ∧
        items.map (BundleItem.member bs) = xs ∧ ∀ item ∈ items, item.miss = item.data.isNone) ∧
    (∀ bs it, bundleIterInit bs = some it →
      ∃ items clean, bundleRead bs (it.remaining.toNat + 1) it = some (items, clean) ∧
        (∀ s ∈ items.flatMap BundleItem.spans, s.1 + s.2 ≤ bs.length) ∧
        (items.flatMap BundleItem.spans).Pairwise (fun s t => s.1 + s.2 ≤ t.1) ∧
        (∀ item ∈ items, item.miss = item.data.isNone) ∧
        (clean = true → ∀ cap, 4 + bundleMaxPath + 8 ≤ cap →
          bundleStream cap (items.map (BundleItem.member bs)) = some bs)) := by
  refine ⟨fun cap xs hmany hxs => ?_, fun bs it hinit => ?_⟩
  · have hcount : (UInt32.ofNat xs.length).toNat = xs.length := by
      rw [bundleMaxItems] at hmany
      exact UInt32.toNat_ofNat_of_lt' (by simp [UInt32.size]; omega)
    have hinit := bundleIterInit_stream (v := UInt32.ofNat xs.length) (by omega)
      (xs.flatMap bundleMemberBytes)
    generalize hbs : bundleHdrEncode (UInt32.ofNat xs.length) ++ xs.flatMap bundleMemberBytes = bs
      at hinit
    generalize hit : (⟨8, (xs.flatMap bundleMemberBytes).length, UInt32.ofNat xs.length⟩ :
      BundleIter) = it at hinit
    have hlen : it.p + it.n = bs.length := by
      rw [← hit, ← hbs, length_append, length_bundleHdrEncode]
    have hdrop : bs.drop it.p = xs.flatMap bundleMemberBytes := by
      rw [← hit, ← hbs]
      exact drop_left' (length_bundleHdrEncode _)
    obtain ⟨items, hread, hmap, hmiss⟩ := bundleRead_members (fun x hx => (hxs x hx).1) hlen
      (by rw [← hit]; exact hcount) hdrop
    exact ⟨bs, it, items, by rw [bundleStream_eq hxs, hbs], hinit, hread, hmap, hmiss⟩
  · obtain ⟨hp, hlen, hmany, hhdr⟩ := bundleIterInit_eq_some hinit
    obtain ⟨items, clean, hread, hfits, hinside, hordered, hclean⟩ := bundleRead_total hlen
    refine ⟨items, clean, hread, fun s hs => (hinside s hs).2, hordered,
      fun item hi => (hfits item hi).2, fun hc cap hcap => ?_⟩
    obtain ⟨hcount, hrest⟩ := hclean hc
    have hall : ∀ x ∈ items.map (BundleItem.member bs), x.Fits ∧ 4 + x.1.length + 8 ≤ cap :=
      fun x hx => by
        obtain ⟨item, hi, rfl⟩ := mem_map.mp hx
        have hfit := (hfits item hi).1
        have := hfit.path_le
        exact ⟨hfit, by omega⟩
    rw [bundleStream_eq hall, length_map, hcount, UInt32.ofNat_toNat, ← hrest, hp, ← hhdr]

end BrixCache
