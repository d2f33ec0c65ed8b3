import BrixCache.Core.Crc32c
import BrixCache.Meta.Xmeta
import BrixCache.Core.Ascii

/-!
# Encoding the metadata record

`fs/meta/xmeta_encode.c`: the stock prefix (version, Store and its checksum,
bitmap, optional access record and their checksum), then the extension header
and the sections STATE, ORIGIN, DIGEST and BLOCKCRC, each present or not as one
plan decides. The source appends each region at a cursor into a buffer of the
planned capacity; here a region is the byte string it appends.
-/

namespace BrixCache

open List

/-! ## Wire layouts -/

def xmetaStockVersion : Int32 := 4

/-- `BRIX_XMETA_EXT_MAGIC`, "XCX1" -/
def xmetaExtMagic : UInt32 := 0x31584358

def xmetaExtVersion : UInt16 := 1

def xmetaSecState : UInt16 := 1

def xmetaSecDigest : UInt16 := 2

def xmetaSecBlockcrc : UInt16 := 3

def xmetaSecOrigin : UInt16 := 4

/-- `brix_xmeta_stock_store_t`: the Store of the stock prefix. -/
structure XmetaStockStore : Type extends XmetaStock where
  /-- how many access records follow the bitmap -/
  astatSize : Int32
  deriving DecidableEq

instance : Wire XmetaStock :=
  Wire.ofEquiv
    (fun s => (s.bufferSize, s.fileSize, s.creationTime, s.noCksumTime, s.accessCnt, s.statusRaw))
    (fun ⟨bufferSize, fileSize, creationTime, noCksumTime, accessCnt, statusRaw⟩ =>
      ⟨bufferSize, fileSize, creationTime, noCksumTime, accessCnt, statusRaw⟩)
    fun _ => rfl

instance : Wire XmetaStockStore :=
  Wire.ofEquiv (fun s => (s.toXmetaStock, s.astatSize)) (fun ⟨stock, n⟩ => ⟨stock, n⟩)
    fun _ => rfl

instance : Wire XmetaAStat :=
  Wire.ofEquiv
    (fun a => (a.attachTime, a.detachTime, a.numIos, a.duration, a.numMerged, a.reserved,
      a.bytesHit, a.bytesMissed, a.bytesBypassed))
    (fun ⟨attach, detach, ios, duration, merged, reserved, hit, missed, bypassed⟩ =>
      ⟨attach, detach, ios, duration, merged, reserved, hit, missed, bypassed⟩)
    fun _ => rfl

instance : Wire XmetaState :=
  Wire.ofEquiv
    (fun s => (s.originMtime, s.dirtyLo, s.dirtyHi, s.flushGen, s.dirtySince, s.lastFlush,
      s.bytesFlushed, s.expiresAt, s.filledAt, s.mode, s.stateFlags))
    (fun ⟨mtime, lo, hi, gen, since, last, flushed, expires, filled, mode, flags⟩ =>
      ⟨mtime, lo, hi, gen, since, last, flushed, expires, filled, mode, flags⟩)
    fun _ => rfl

/-- The sizes the source pins at compile time. -/
example : Wire.width XmetaStockStore = 48 ∧ Wire.width XmetaAStat = 56 ∧
    Wire.width XmetaState = 80 := ⟨rfl, rfl, rfl⟩

/-! ## The plan -/

/-- `xmeta_encode_plan_t`: which regions are present and how long they are. -/
structure XmetaEncodePlan : Type where
  /-- stock bitmap length -/
  blen : ℕ
  haveOrigin : Bool
  /-- BLOCKCRC section present -/
  haveBlockcrc : Bool
  originPlen : ℕ
  /-- `0` when absent -/
  blockcrcPlen : ℕ
  /-- extension section count -/
  nsec : UInt16
  /-- total encoded capacity -/
  cap : ℕ

/-- `XMETA_ORIGIN_FIXED`: the length bytes in front of the ORIGIN strings. -/
def xmetaOriginFixed : ℕ := 4

/-- Is the ORIGIN section present? When any of its strings is non-empty. -/
def Xmeta.hasOrigin (m : Xmeta) : Bool :=
  decide (0 < m.etag.length ∨ 0 < m.cksHex.length ∨ 0 < m.cksAlg.length)

/-- Is the BLOCKCRC section present? When it is tracked and the table exists. -/
def Xmeta.hasBlockcrc (m : Xmeta) : Bool := m.haveBlockcrc && m.blockcrc.isSome

/-- The lengths of the parts and of the whole. -/
def xmetaEncodePlan (m : Xmeta) : XmetaEncodePlan :=
  let blen := xmetaBitmapLen m.nblocks
  let originPlen := xmetaOriginFixed + m.etag.length + m.cksAlg.length + m.cksHex.length
  let blockcrcPlen := if m.hasBlockcrc then 16 + m.nblocks.toNat * 4 else 0
  { blen := blen
    haveOrigin := m.hasOrigin
    haveBlockcrc := m.hasBlockcrc
    originPlen := originPlen
    blockcrcPlen := blockcrcPlen
    nsec := (if m.haveState then 1 else 0) + (if m.digests.isSome then 1 else 0)
      + (if m.hasBlockcrc then 1 else 0) + (if m.hasOrigin then 1 else 0)
    cap := 4 + Wire.width XmetaStockStore + 4 + blen
      + (if 0 < m.astatCount then Wire.width XmetaAStat else 0) + 4 + 8
      + (if m.haveState then 12 + Wire.width XmetaState else 0)
      + (match m.digests with | some ds => 12 + ds.length | none => 0)
      + (if 0 < blockcrcPlen then 12 + blockcrcPlen else 0)
      + (if m.hasOrigin then 12 + originPlen else 0) }

/-! ## The regions -/

/-- The Store the prefix carries: at most one access record is kept. -/
def Xmeta.stockStore (m : Xmeta) : XmetaStockStore :=
  { toXmetaStock := m.toXmetaStock, astatSize := if 0 < m.astatCount then 1 else 0 }

/-- The part the stock reader understands. -/
def xmetaEncodeStockPrefix (m : Xmeta) (blen : ℕ) : Bytes :=
  let store := Wire.put m.stockStore
  let bitmap := m.bitmap.take blen
  let astat := if 0 < m.stockStore.astatSize then Wire.put m.astat else []
  let crc := if 0 < m.stockStore.astatSize then crc32cExtend (crc32cValue bitmap) astat
    else crc32cValue bitmap
  Wire.put xmetaStockVersion ++ (store ++ (Wire.put (crc32cValue store) ++
    (bitmap ++ (astat ++ Wire.put crc))))

/-- `xmeta_put_section`: type, reserved, length, payload, and the checksum of
all four. -/
def xmetaPutSection (type : UInt16) (payload : Bytes) : Bytes :=
  let plen := UInt32.ofNat payload.length
  let crc := crc32cValue (Wire.put type ++ Wire.put (0 : UInt16) ++ Wire.put plen ++ payload)
  Wire.put type ++ (Wire.put (0 : UInt16) ++ (Wire.put plen ++ (payload ++ Wire.put crc)))

/-- The payload of `xmeta_encode_origin_section`: three length bytes and a pad,
then the three strings back to back. -/
def xmetaOriginPayload (o : XmetaOrigin) : Bytes :=
  [UInt8.ofNat o.etag.length, UInt8.ofNat o.cksAlg.length, UInt8.ofNat o.cksHex.length, 0] ++
    o.etag ++ o.cksAlg ++ o.cksHex

/-- The payload of `xmeta_encode_blockcrc_section`: granule, reserved, block
count, and the table. -/
def xmetaBlockcrcPayload (m : Xmeta) (table : List UInt32) : Bytes :=
  Wire.put m.bufferSize.toUInt64.toUInt32 ++ Wire.put (0 : UInt32) ++ Wire.put m.nblocks ++
    Wire.putAll (table.take m.nblocks.toNat)

/-- `xmeta_encode_state_section` when the record has state. -/
def xmetaEncodeState (m : Xmeta) : Bytes :=
  if m.haveState then xmetaPutSection xmetaSecState (Wire.put m.toXmetaState) else []

/-- `xmeta_encode_origin_section` when the plan has it. -/
def xmetaEncodeOrigin (m : Xmeta) : Bytes :=
  if m.hasOrigin then xmetaPutSection xmetaSecOrigin (xmetaOriginPayload m.toXmetaOrigin) else []

def xmetaEncodeDigest (m : Xmeta) : Bytes :=
  match m.digests with
  | some ds => xmetaPutSection xmetaSecDigest ds
  | none => []

/-- `xmeta_encode_blockcrc_section` when the plan has it. -/
def xmetaEncodeBlockcrc (m : Xmeta) : Bytes :=
  match m.haveBlockcrc, m.blockcrc with
  | true, some table => xmetaPutSection xmetaSecBlockcrc (xmetaBlockcrcPayload m table)
  | _, _ => []

/-- The extension header: magic, version, section count. -/
def xmetaEncodeExtHeader (nsec : UInt16) : Bytes :=
  Wire.put xmetaExtMagic ++ (Wire.put xmetaExtVersion ++ Wire.put nsec)

/-- The sections, in the order the source emits them. -/
def xmetaEncodeSections (m : Xmeta) : Bytes :=
  xmetaEncodeState m ++ (xmetaEncodeOrigin m ++ (xmetaEncodeDigest m ++ xmetaEncodeBlockcrc m))

/-- `brix_xmeta_encode`. The bitmap is a list here, so only the granule can be
refused. -/
def xmetaEncode (m : Xmeta) : Except Errno Bytes :=
  if m.bufferSize ≤ 0 then .error .einval
  else
    let plan := xmetaEncodePlan m
    .ok (xmetaEncodeStockPrefix m plan.blen ++
      (xmetaEncodeExtHeader plan.nsec ++ xmetaEncodeSections m))

/-! ## Lengths: the plan is met exactly -/

/-- Bytes of the stock prefix of a record. -/
def Xmeta.stockLen (m : Xmeta) : ℕ :=
  4 + 48 + 4 + xmetaBitmapLen m.nblocks + (if 0 < m.astatCount then 56 else 0) + 4

theorem Xmeta.astatSize_pos (m : Xmeta) :
    0 < m.stockStore.astatSize ↔ 0 < m.astatCount := by
  by_cases h : 0 < m.astatCount
  · have hs : m.stockStore.astatSize = 1 := if_pos h
    rw [hs]
    exact ⟨fun _ => h, fun _ => by decide⟩
  · have hs : m.stockStore.astatSize = 0 := if_neg h
    rw [hs]
    exact ⟨fun hlt => absurd hlt (by decide), fun hlt => absurd hlt h⟩

theorem xmetaEncodeStockPrefix_length {m : Xmeta} (hm : m.WellFormed) :
    (xmetaEncodeStockPrefix m (xmetaBitmapLen m.nblocks)).length = m.stockLen := by
  have hbm : (m.bitmap.take (xmetaBitmapLen m.nblocks)).length = xmetaBitmapLen m.nblocks := by
    rw [length_take, hm.bitmap_length, Nat.min_self]
  have hv : Wire.width Int32 = 4 := rfl
  have hs : Wire.width XmetaStockStore = 48 := rfl
  have hc : Wire.width UInt32 = 4 := rfl
  have ha : Wire.width XmetaAStat = 56 := rfl
  rw [xmetaEncodeStockPrefix, Xmeta.stockLen]
  simp only [length_append, Wire.put_length, hbm, Xmeta.astatSize_pos, hv, hs, hc]
  by_cases h : 0 < m.astatCount
  · rw [if_pos h, if_pos h, Wire.put_length, ha]
    omega
  · rw [if_neg h, if_neg h, length_nil]
    omega

theorem xmetaPutSection_length (type : UInt16) (payload : Bytes) :
    (xmetaPutSection type payload).length = 12 + payload.length := by
  have ht : Wire.width UInt16 = 2 := rfl
  have hc : Wire.width UInt32 = 4 := rfl
  simp only [xmetaPutSection, length_append, Wire.put_length, ht, hc]
  omega

theorem xmetaOriginPayload_length (o : XmetaOrigin) :
    (xmetaOriginPayload o).length =
      xmetaOriginFixed + o.etag.length + o.cksAlg.length + o.cksHex.length := by
  simp only [xmetaOriginPayload, length_append, length_cons, length_nil,
    xmetaOriginFixed]

theorem xmetaBlockcrcPayload_length (m : Xmeta) {table : List UInt32}
    (ht : table.length = m.nblocks.toNat) :
    (xmetaBlockcrcPayload m table).length = 16 + m.nblocks.toNat * 4 := by
  have hc : Wire.width UInt32 = 4 := rfl
  have hn : Wire.width UInt64 = 8 := rfl
  simp only [xmetaBlockcrcPayload, length_append, Wire.put_length, Wire.putAll_length,
    length_take, ht, Nat.min_self, hc, hn]

theorem xmetaEncodeExtHeader_length (nsec : UInt16) : (xmetaEncodeExtHeader nsec).length = 8 := by
  have ht : Wire.width UInt16 = 2 := rfl
  have hc : Wire.width UInt32 = 4 := rfl
  simp only [xmetaEncodeExtHeader, length_append, Wire.put_length, ht, hc]

theorem xmetaEncodeState_length (m : Xmeta) :
    (xmetaEncodeState m).length = if m.haveState then 12 + Wire.width XmetaState else 0 := by
  rw [xmetaEncodeState]
  by_cases h : m.haveState
  · rw [if_pos h, if_pos h, xmetaPutSection_length, Wire.put_length]
  · rw [if_neg h, if_neg h, length_nil]

theorem xmetaEncodeOrigin_length (m : Xmeta) :
    (xmetaEncodeOrigin m).length =
      if m.hasOrigin then 12 + (xmetaEncodePlan m).originPlen else 0 := by
  rw [xmetaEncodeOrigin]
  by_cases h : m.hasOrigin
  · rw [if_pos h, if_pos h, xmetaPutSection_length, xmetaOriginPayload_length]
    rfl
  · rw [if_neg h, if_neg h, length_nil]

theorem xmetaEncodeDigest_length (m : Xmeta) :
    (xmetaEncodeDigest m).length =
      match m.digests with | some ds => 12 + ds.length | none => 0 := by
  rw [xmetaEncodeDigest]
  rcases m.digests with _ | ds
  · rfl
  · exact xmetaPutSection_length xmetaSecDigest ds

theorem xmetaEncodeBlockcrc_length {m : Xmeta} (hm : m.WellFormed) :
    (xmetaEncodeBlockcrc m).length =
      if 0 < (xmetaEncodePlan m).blockcrcPlen then 12 + (xmetaEncodePlan m).blockcrcPlen else 0 := by
  have hplen : (xmetaEncodePlan m).blockcrcPlen =
      if m.hasBlockcrc then 16 + m.nblocks.toNat * 4 else 0 := rfl
  rw [hplen, xmetaEncodeBlockcrc, Xmeta.hasBlockcrc]
  rcases hb : m.haveBlockcrc with _ | _
  · rfl
  · rcases ht : m.blockcrc with _ | table
    · rfl
    · have hlen := xmetaBlockcrcPayload_length m (hm.blockcrc_length table ht)
      have hpos : 0 < 16 + m.nblocks.toNat * 4 := by omega
      simp only [Option.isSome_some, Bool.and_self, if_true, hpos, xmetaPutSection_length, hlen]

theorem xmetaEncode_length {m : Xmeta} (hm : m.WellFormed) {bytes : Bytes}
    (h : xmetaEncode m = .ok bytes) : bytes.length = (xmetaEncodePlan m).cap := by
  rw [xmetaEncode, if_neg (Int64.not_le.mpr hm.bufferSize_pos)] at h
  cases h
  have hstock := xmetaEncodeStockPrefix_length hm
  have hcap : (xmetaEncodePlan m).cap = m.stockLen + 8
      + (if m.haveState then 12 + Wire.width XmetaState else 0)
      + (match m.digests with | some ds => 12 + ds.length | none => 0)
      + (if 0 < (xmetaEncodePlan m).blockcrcPlen then 12 + (xmetaEncodePlan m).blockcrcPlen
          else 0)
      + (if m.hasOrigin then 12 + (xmetaEncodePlan m).originPlen else 0) := rfl
  rw [hcap, ← xmetaEncodeState_length, ← xmetaEncodeDigest_length,
    ← xmetaEncodeBlockcrc_length hm, ← xmetaEncodeOrigin_length, ← hstock]
  simp only [length_append, xmetaEncodeSections, xmetaEncodeExtHeader_length]
  have hblen : (xmetaEncodePlan m).blen = xmetaBitmapLen m.nblocks := rfl
  rw [hblen]
  omega

end BrixCache
