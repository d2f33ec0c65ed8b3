import BrixCache.Core.Ascii
import BrixCache.Lib.Segments
import BrixCache.Lib.Wire
import Mathlib.Order.Lattice

/-!
# The path index

`shared/cvmfs/index/pathidx.c`: the whole namespace of a revision in one file that is mapped into
memory. A header, the entries in the order of their directories and names, a hash table of them by
path, and the strings. The header is checked when the file is opened, an entry when it is read; a
read outside the mapping is a fault of its own here.
-/

namespace BrixCache

open Segments

/-! ## The file -/

instance (n : ℕ) : Wire (Vector UInt8 n) where
  width := n
  put v := v.toList
  get bs := Vector.ofFn fun i => bs.getD i 0
  put_length v := by simp
  get_put v := by
    ext i hi
    simp

/-- `cvmfs_hash_t` as it lies in memory -/
structure PathidxHash : Type where
  algo : UInt32
  bytes : Vector UInt8 20
  len : UInt64
  deriving DecidableEq

instance : Wire PathidxHash :=
  Wire.ofEquiv (fun h => (h.algo, h.bytes, h.len)) (fun t => ⟨t.1, t.2.1, t.2.2⟩) fun _ => rfl

/-- `cvmfs_pathidx_hdr_t` -/
structure PathidxHdr : Type where
  magic : UInt32
  version : UInt32
  hashSz : UInt32
  entSz : UInt32
  root : PathidxHash
  count : UInt64
  nbuckets : UInt64
  entsOff : UInt64
  bucketsOff : UInt64
  blobOff : UInt64
  blobLen : UInt64
  fileLen : UInt64
  hdrCrc : UInt32
  rsvd : UInt32
  deriving DecidableEq

instance : Wire PathidxHdr :=
  Wire.ofEquiv
    (fun h => (h.magic, h.version, h.hashSz, h.entSz, h.root, h.count, h.nbuckets, h.entsOff,
      h.bucketsOff, h.blobOff, h.blobLen, h.fileLen, h.hdrCrc, h.rsvd))
    (fun t => ⟨t.1, t.2.1, t.2.2.1, t.2.2.2.1, t.2.2.2.2.1, t.2.2.2.2.2.1, t.2.2.2.2.2.2.1,
      t.2.2.2.2.2.2.2.1, t.2.2.2.2.2.2.2.2.1, t.2.2.2.2.2.2.2.2.2.1, t.2.2.2.2.2.2.2.2.2.2.1,
      t.2.2.2.2.2.2.2.2.2.2.2.1, t.2.2.2.2.2.2.2.2.2.2.2.2.1, t.2.2.2.2.2.2.2.2.2.2.2.2.2⟩)
    fun _ => rfl

/-- `cvmfs_pathidx_ent_t` -/
structure PathidxEnt : Type where
  pathOff : UInt64
  pathLen : UInt32
  dlen : UInt32
  size : UInt64
  mtime : Int64
  mode : UInt32
  flags : UInt32
  linkOff : UInt64
  linkLen : UInt32
  hasHash : UInt32
  uid : UInt32
  gid : UInt32
  linkcount : UInt32
  rsvd : UInt32
  hash : PathidxHash
  deriving DecidableEq

instance : Wire PathidxEnt :=
  Wire.ofEquiv
    (fun e => (e.pathOff, e.pathLen, e.dlen, e.size, e.mtime, e.mode, e.flags, e.linkOff,
      e.linkLen, e.hasHash, e.uid, e.gid, e.linkcount, e.rsvd, e.hash))
    (fun t => ⟨t.1, t.2.1, t.2.2.1, t.2.2.2.1, t.2.2.2.2.1, t.2.2.2.2.2.1, t.2.2.2.2.2.2.1,
      t.2.2.2.2.2.2.2.1, t.2.2.2.2.2.2.2.2.1, t.2.2.2.2.2.2.2.2.2.1, t.2.2.2.2.2.2.2.2.2.2.1,
      t.2.2.2.2.2.2.2.2.2.2.2.1, t.2.2.2.2.2.2.2.2.2.2.2.2.1, t.2.2.2.2.2.2.2.2.2.2.2.2.2.1,
      t.2.2.2.2.2.2.2.2.2.2.2.2.2.2⟩)
    fun _ => rfl

/-- `sizeof(cvmfs_pathidx_hdr_t)` -/
def pathidxHdrSize : ℕ := 112

/-- `sizeof(cvmfs_pathidx_ent_t)` -/
def pathidxEntSize : ℕ := 104

def pidxMaxBytes : ℕ := 2 ^ 30

/-! ## Opening -/

/-- `hdr_crc`, of whatever zlib's `crc32` computes -/
def hdrCrc (crc32 : Bytes → UInt32) (h : PathidxHdr) : UInt32 :=
  crc32 (Wire.put { h with hdrCrc := 0 })

/-- Magic, version, sizes and the header's checksum. -/
def headerIdentityValid (crc32 : Bytes → UInt32) (h : PathidxHdr) (len : UInt64) : Bool :=
  h.magic = 0x49505842 && h.version = 1 && h.hashSz = 32 && h.entSz = 104 &&
    h.hdrCrc = hdrCrc crc32 h && h.fileLen = len

/-- Counts that the file has room for. -/
def headerCountsValid (h : PathidxHdr) (len : UInt64) : Bool :=
  0 < h.count && h.count ≤ len / 104 && 0 < h.nbuckets && h.nbuckets &&& (h.nbuckets - 1) = 0 &&
    h.nbuckets ≤ len / 4

/-- `header_layout_valid`, in numbers of 64 bits -/
def headerLayoutValid (h : PathidxHdr) (len : UInt64) : Bool :=
  h.entsOff = 112 && h.bucketsOff = h.entsOff + h.count * 104 &&
    h.blobOff = h.bucketsOff + h.nbuckets * 4 && h.blobOff + h.blobLen = len

/-- `cvmfs_pathidx_t`: the mapping and its header -/
structure Pathidx : Type where
  map : Bytes
  hdr : PathidxHdr

/-- `cvmfs_pathidx_open` of a file that can be read and mapped -/
def cvmfsPathidxOpen (crc32 : Bytes → UInt32) (bytes : Bytes) : Option Pathidx :=
  if bytes.length < pathidxHdrSize ∨ pidxMaxBytes < bytes.length then none
  else
    let h : PathidxHdr := Wire.get (bytes.take pathidxHdrSize)
    let len := UInt64.ofNat bytes.length
    if headerIdentityValid crc32 h len && headerCountsValid h len && headerLayoutValid h len then
      some ⟨bytes, h⟩
    else none

theorem open_put {crc32 : Bytes → UInt32} {h : PathidxHdr} {rest : Bytes}
    (hlen : pathidxHdrSize + rest.length ≤ pidxMaxBytes)
    (hid : headerIdentityValid crc32 h (UInt64.ofNat (pathidxHdrSize + rest.length)) = true)
    (hcounts : headerCountsValid h (UInt64.ofNat (pathidxHdrSize + rest.length)) = true)
    (hlayout : headerLayoutValid h (UInt64.ofNat (pathidxHdrSize + rest.length)) = true) :
    cvmfsPathidxOpen crc32 (Wire.put h ++ rest) = some ⟨Wire.put h ++ rest, h⟩ := by
  have hput : (Wire.put h).length = pathidxHdrSize := Wire.put_length h
  have hget : (Wire.get ((Wire.put h ++ rest).take pathidxHdrSize) : PathidxHdr) = h := by
    rw [List.take_left' hput, Wire.get_put]
  have hbytes : (Wire.put h ++ rest).length = pathidxHdrSize + rest.length := by
    rw [List.length_append, hput]
  rw [cvmfsPathidxOpen, hbytes, hget, if_neg (by omega)]
  simp only [hid, hcounts, hlayout, Bool.and_self, if_true]

theorem hdrCrc_set (crc32 : Bytes → UInt32) (h : PathidxHdr) (c : UInt32) :
    hdrCrc crc32 { h with hdrCrc := c } = hdrCrc crc32 h := rfl

/-! ## Reading -/

/-- What must not happen: a read outside the mapping, or no end -/
inductive PathidxFault : Type where
  | outside
  | spin
  deriving DecidableEq

namespace Pathidx

/-- The bytes at an offset of the mapping, as pointers add: modulo `2 ^ 64` -/
def bytesAt (ix : Pathidx) (off : UInt64) (n : ℕ) : Except PathidxFault Bytes :=
  if off.toNat + n ≤ ix.map.length then .ok ((ix.map.drop off.toNat).take n) else .error .outside

/-- `ix->ents[i]` -/
def ent (ix : Pathidx) (i : UInt64) : Except PathidxFault PathidxEnt :=
  (ix.bytesAt (ix.hdr.entsOff + i * 104) pathidxEntSize).map Wire.get

/-- `ix->buckets[slot]` -/
def bucket (ix : Pathidx) (slot : UInt64) : Except PathidxFault UInt32 :=
  (ix.bytesAt (ix.hdr.bucketsOff + slot * 4) 4).map Wire.get

/-- Bytes of `ix->blob`; none of them is no access. -/
def blob (ix : Pathidx) (off : UInt64) (n : ℕ) : Except PathidxFault Bytes :=
  if n = 0 then .ok [] else ix.bytesAt (ix.hdr.blobOff + off) n

end Pathidx

/-- The length of a string does not fit what is left of the blob behind its offset. -/
def passesBlob (bl off : UInt64) (len : UInt32) : Bool :=
  bl ≤ off || bl - off ≤ len.toUInt64

/-- The path of `ent_valid`: it ends in the blob, and divides at its `dlen`. -/
def entPathValid (ix : Pathidx) (e : PathidxEnt) : Except PathidxFault Bool :=
  if passesBlob ix.hdr.blobLen e.pathOff e.pathLen then .ok false
  else do
    let nul ← ix.blob (e.pathOff + e.pathLen.toUInt64) 1
    if nul ≠ [0] then .ok false
    else if e.pathLen = 0 then .ok true
    else if e.pathLen ≤ e.dlen + 1 then .ok false
    else do
      let sep ← ix.blob (e.pathOff + e.dlen.toUInt64) 1
      .ok (sep = [slash] && e.pathLen - e.dlen - 1 < 256)

/-- The link of `ent_valid` -/
def entLinkValid (ix : Pathidx) (e : PathidxEnt) : Except PathidxFault Bool :=
  if e.linkLen = 0 then .ok true
  else if passesBlob ix.hdr.blobLen e.linkOff e.linkLen then .ok false
  else do
    let nul ← ix.blob (e.linkOff + e.linkLen.toUInt64) 1
    .ok (nul = [0] && e.linkLen < 1024)

def entValid (ix : Pathidx) (e : PathidxEnt) : Except PathidxFault Bool := do
  if ← entPathValid ix e then
    if ← entLinkValid ix e then .ok (e.hash.len ≤ 20) else .ok false
  else .ok false

/-- `cvmfs_dirent_t`, without the hard-link group, which the index does not keep -/
structure PathidxDirent : Type where
  name : Bytes
  flags : UInt32
  mode : UInt32
  size : UInt64
  mtime : Int64
  uid : UInt32
  gid : UInt32
  linkcount : UInt32
  symlink : Bytes
  hash : Option PathidxHash
  deriving DecidableEq

/-- The entry as a lookup returns it. -/
def entFill (ix : Pathidx) (e : PathidxEnt) : Except PathidxFault PathidxDirent := do
  let name ← if e.pathLen = 0 then .ok []
    else ix.blob (e.pathOff + e.dlen.toUInt64 + 1) (e.pathLen - e.dlen - 1).toNat
  let symlink ← ix.blob e.linkOff e.linkLen.toNat
  .ok
    { name := name
      flags := e.flags
      mode := e.mode
      size := e.size
      mtime := e.mtime
      uid := e.uid
      gid := e.gid
      linkcount := e.linkcount
      symlink := symlink
      hash := if e.hasHash = 0 then none else some e.hash }

/-- `fnv1a` -/
def pathidxFnv1a (k : Bytes) : UInt64 :=
  k.foldl (fun h b => (h ^^^ b.toUInt64) * 1099511628211) 1469598103934665603

/-- What a lookup returns: -1, 0, or 1 with the entry -/
inductive PathidxAnswer : Type where
  | corrupt
  | absent
  | found (d : PathidxDirent)
  deriving DecidableEq

/-- The probes of `cvmfs_pathidx_lookup` that are left -/
def pathidxProbe (ix : Pathidx) (path : Bytes) : ℕ → UInt64 →
    Except PathidxFault PathidxAnswer
  | 0, _ => .ok .corrupt
  | probes + 1, slot => do
    let v ← ix.bucket slot
    if v = 0 then .ok .absent
    else if ix.hdr.count ≤ v.toUInt64 - 1 then .ok .corrupt
    else do
      let e ← ix.ent (v.toUInt64 - 1)
      if ← entValid ix e then
        if e.pathLen.toNat = path.length then do
          if (← ix.blob e.pathOff path.length) = path then (entFill ix e).map .found
          else pathidxProbe ix path probes ((slot + 1) &&& (ix.hdr.nbuckets - 1))
        else pathidxProbe ix path probes ((slot + 1) &&& (ix.hdr.nbuckets - 1))
      else .ok .corrupt

/-- Probe the buckets from the hash of the path. -/
def cvmfsPathidxLookup (ix : Pathidx) (path : Bytes) : Except PathidxFault PathidxAnswer :=
  pathidxProbe ix path ix.hdr.nbuckets.toNat (pathidxFnv1a path &&& (ix.hdr.nbuckets - 1))

/-- `memcmp` of so many bytes and then the lengths: `dir_cmp` of an entry -/
def dirCmp (ix : Pathidx) (e : PathidxEnt) (dir : Bytes) : Except PathidxFault Ordering := do
  let m := min e.dlen.toNat dir.length
  let front ← ix.blob e.pathOff m
  .ok ((compare front (dir.take m)).then (compare e.dlen.toNat dir.length))

/-- The binary search of `cvmfs_pathidx_readdir`; none is an entry that is not valid. -/
def pathidxSearch (ix : Pathidx) (dir : Bytes) : ℕ → UInt64 → UInt64 →
    Except PathidxFault (Option UInt64)
  | fuel, lo, hi =>
    if lo < hi then
      match fuel with
      | 0 => .error .spin
      | fuel + 1 => do
        let mid := lo + (hi - lo) / 2
        let e ← ix.ent mid
        if ← entValid ix e then
          if (← dirCmp ix e dir) = .lt then pathidxSearch ix dir fuel (mid + 1) hi
          else pathidxSearch ix dir fuel lo mid
        else .ok none
    else .ok (some lo)

/-- The walk of a directory's run, over so many entries from one on: what is reported, and whether
the end of the run was reached -/
def pathidxWalk (ix : Pathidx) (dir : Bytes) : ℕ → UInt64 →
    Except PathidxFault (List PathidxDirent × Bool)
  | 0, _ => .ok ([], true)
  | left + 1, i => do
    let e ← ix.ent i
    if ← entValid ix e then
      if (← dirCmp ix e dir) ≠ .eq then .ok ([], true)
      -- the root's own entry
      else if e.pathLen = 0 then pathidxWalk ix dir left (i + 1)
      else do
        let out ← entFill ix e
        let rest ← pathidxWalk ix dir left (i + 1)
        .ok (out :: rest.1, rest.2)
    else .ok ([], false)

/-- `cvmfs_pathidx_readdir`: the entries reported, and whether the result is their number, not -1 -/
def cvmfsPathidxReaddir (ix : Pathidx) (dir : Bytes) :
    Except PathidxFault (List PathidxDirent × Bool) := do
  match ← cvmfsPathidxLookup ix dir with
  | .corrupt => .ok ([], false)
  | .absent => .ok ([], false)
  | .found d =>
    -- `CVMFS_FLAG_DIR`
    if d.flags &&& 1 = 0 then .ok ([], false)
    else do
      match ← pathidxSearch ix dir ix.hdr.count.toNat 0 ix.hdr.count with
      | none => .ok ([], false)
      | some lo => pathidxWalk ix dir (ix.hdr.count - lo).toNat lo

end BrixCache
