import BrixCache.Lib.Bitmap
import BrixCache.Lib.Posix
import BrixCache.Lib.Wire

/-!
# The per-file metadata record

The in-memory record of `fs/meta/xmeta.h` and the operations of
`fs/meta/xmeta.c` on it: its geometry, its lifecycle and its present bitmap.
The fields are grouped as the wire groups them — the Store of the stock prefix,
the STATE section, the ORIGIN section — and reached by the source's flat names
through `extends`.

Strings are byte lists: a C pair of a length and a fixed array is the list of
the bytes in use, and `Xmeta.WellFormed` bounds it by the array.
-/

namespace BrixCache

open List

/-- `BRIX_XMETA_MAX_BLOCKS`: a 64 TiB file at 1 MiB blocks. -/
def xmetaMaxBlocks : ℕ := 2 ^ 26

/-- `BRIX_XMETA_MAX_SECTION`: the largest section payload a reader accepts. -/
def xmetaMaxSection : ℕ := xmetaMaxBlocks * 4 + 64

/-- `BRIX_XMETA_CRC_UNSET`: a block checksum slot that vouches for nothing. -/
def xmetaCrcUnset : UInt32 := 0

/-- `brix_xmeta_astat_t`: one folded access record, stock layout. -/
structure XmetaAStat : Type where
  attachTime : Int64
  detachTime : Int64
  numIos : Int32
  duration : Int32
  numMerged : Int32
  reserved : Int32
  bytesHit : Int64
  bytesMissed : Int64
  bytesBypassed : Int64
  deriving DecidableEq, Inhabited

/-- An access record nothing was folded into. -/
def XmetaAStat.zero : XmetaAStat := ⟨0, 0, 0, 0, 0, 0, 0, 0, 0⟩

/-- The record fields the stock Store carries. -/
structure XmetaStock : Type where
  /-- block granule, bytes -/
  bufferSize : Int64
  fileSize : Int64
  creationTime : Int64
  noCksumTime : Int64
  accessCnt : UInt64
  statusRaw : UInt32
  deriving DecidableEq, Inhabited

/-- The write-back and validity fields with no stock slot, `xmeta_state_wire_t`. -/
structure XmetaState : Type where
  originMtime : UInt64
  /-- dirty byte extent, from here -/
  dirtyLo : UInt64
  /-- up to here; `dirtyLo = dirtyHi` is clean -/
  dirtyHi : UInt64
  /-- bumped per successful write-back -/
  flushGen : UInt64
  dirtySince : UInt64
  lastFlush : UInt64
  bytesFlushed : UInt64
  expiresAt : UInt64
  filledAt : UInt64
  /-- origin permission bits; `0` is unrecorded -/
  mode : UInt32
  stateFlags : UInt32
  deriving DecidableEq, Inhabited

/-- The STATE fields of a record that carries no STATE section. -/
def XmetaState.zero : XmetaState := ⟨0, 0, 0, 0, 0, 0, 0, 0, 0, 0, 0⟩

/-- The validity strings; empty when unrecorded. -/
structure XmetaOrigin : Type where
  etag : List UInt8
  cksAlg : List UInt8
  cksHex : List UInt8
  deriving DecidableEq, Inhabited

/-- The ORIGIN fields of a record that carries no ORIGIN section. -/
def XmetaOrigin.empty : XmetaOrigin := ⟨[], [], []⟩

/-- `brix_xmeta_t`: the record in memory. -/
structure Xmeta : Type extends XmetaStock, XmetaState, XmetaOrigin where
  astat : XmetaAStat
  /-- how many access records the stock prefix holds -/
  astatCount : Int32
  /-- blocks covering the file -/
  nblocks : UInt64
  /-- the present bitmap, one bit a block -/
  bitmap : List UInt8
  haveState : Bool
  haveBlockcrc : Bool
  /-- raw DIGEST payload; `none` is the NULL pointer -/
  digests : Option (List UInt8)
  /-- one checksum per block; `none` is the NULL pointer -/
  blockcrc : Option (List UInt32)
  deriving DecidableEq

/-! ## Geometry -/

/-- `xmeta_nblocks`: blocks of `bufferSize` covering `fileSize`, none for an
empty file. -/
def xmetaNblocks (fileSize bufferSize : Int64) : UInt64 :=
  if fileSize ≤ 0 then 0
  else (fileSize.toUInt64 + bufferSize.toUInt64 - 1) / bufferSize.toUInt64

/-- `xmeta_bitmap_len`: bytes of a present bitmap for `nblocks` blocks. -/
def xmetaBitmapLen (nblocks : UInt64) : ℕ := Bitmap.bytes nblocks.toNat

theorem toNat_xmetaNblocks {fileSize bufferSize : Int64} (hf : 0 ≤ fileSize)
    (hb : 0 < bufferSize) :
    (xmetaNblocks fileSize bufferSize).toNat =
      (fileSize.toNatClampNeg + bufferSize.toNatClampNeg - 1) / bufferSize.toNatClampNeg := by
  have hf' := Int64.toNat_toUInt64_of_le hf
  have hb' := Int64.toNat_toUInt64_of_le (Int64.le_of_lt hb)
  have hfi : 0 ≤ fileSize.toInt := Int64.le_iff_toInt_le.mp hf
  have hbi : 0 < bufferSize.toInt := Int64.lt_iff_toInt_lt.mp hb
  have hflt := fileSize.toInt_lt
  have hblt := bufferSize.toInt_lt
  have hfc : (fileSize.toNatClampNeg : ℤ) = fileSize.toInt := Int.toNat_of_nonneg hfi
  have hbc : (bufferSize.toNatClampNeg : ℤ) = bufferSize.toInt :=
    Int.toNat_of_nonneg (Int.le_of_lt hbi)
  rw [xmetaNblocks]
  by_cases hz : fileSize ≤ 0
  · have hzi : fileSize.toInt ≤ 0 := Int64.le_iff_toInt_le.mp hz
    have hzero : fileSize.toNatClampNeg = 0 := by omega
    rw [if_pos hz, hzero, Nat.zero_add, Nat.div_eq_of_lt (by omega)]
    rfl
  · rw [if_neg hz, UInt64.toNat_div, hb', UInt64.toNat_sub, UInt64.toNat_add, hf', hb']
    congr 1
    have hone : (1 : UInt64).toNat = 1 := rfl
    omega

/-! ## Lifecycle -/

/-- `brix_xmeta_init` at time `now`: a record with an empty present bitmap and
an unset block checksum table sized for the file. -/
def xmetaInit (now fileSize bufferSize : Int64) : Except Errno Xmeta :=
  if bufferSize ≤ 0 ∨ fileSize < 0 then .error .einval
  else
    let nb := xmetaNblocks fileSize bufferSize
    if xmetaMaxBlocks < nb.toNat then .error .efbig
    else .ok {
      bufferSize := bufferSize, fileSize := fileSize, creationTime := now, noCksumTime := 0,
      accessCnt := 0, statusRaw := 0, toXmetaState := XmetaState.zero,
      toXmetaOrigin := XmetaOrigin.empty, astat := XmetaAStat.zero, astatCount := 0,
      nblocks := nb, bitmap := replicate (xmetaBitmapLen nb) 0, haveState := true,
      haveBlockcrc := true, digests := none,
      blockcrc := some (replicate nb.toNat xmetaCrcUnset) }

namespace Xmeta

def size (m : Xmeta) : ℕ := m.fileSize.toNatClampNeg

/-- The block granule as a natural. -/
def granule (m : Xmeta) : ℕ := m.bufferSize.toNatClampNeg

/-- What the record's own comments promise of it: the block count is that of
the file, the bitmap and the checksum table have its length, the strings fit
their arrays and the digest blob its 32-bit length. -/
structure WellFormed (m : Xmeta) : Prop where
  bufferSize_pos : 0 < m.bufferSize
  nblocks_eq : m.nblocks = xmetaNblocks m.fileSize m.bufferSize
  bitmap_length : m.bitmap.length = xmetaBitmapLen m.nblocks
  etag_le : m.etag.length ≤ 128
  cksAlg_le : m.cksAlg.length ≤ 16
  cksHex_le : m.cksHex.length ≤ 129
  digests_lt : ∀ ds, m.digests = some ds → ds.length < 2 ^ 32
  blockcrc_length : ∀ cs, m.blockcrc = some cs → cs.length = m.nblocks.toNat

end Xmeta

theorem xmetaInit_eq_ok {now fileSize bufferSize : Int64} {m : Xmeta}
    (h : xmetaInit now fileSize bufferSize = .ok m) :
    0 < bufferSize ∧ 0 ≤ fileSize ∧ m.WellFormed ∧ m.fileSize = fileSize ∧
      m.bufferSize = bufferSize ∧ m.nblocks.toNat ≤ xmetaMaxBlocks := by
  rw [xmetaInit] at h
  by_cases hbad : bufferSize ≤ 0 ∨ fileSize < 0
  · rw [if_pos hbad] at h
    cases h
  · rw [if_neg hbad] at h
    have hb : 0 < bufferSize := Int64.not_le.mp fun hle => hbad (.inl hle)
    have hf : 0 ≤ fileSize := Int64.not_lt.mp fun hlt => hbad (.inr hlt)
    by_cases hbig : xmetaMaxBlocks < (xmetaNblocks fileSize bufferSize).toNat
    · simp only [if_pos hbig] at h
      cases h
    · simp only [if_neg hbig] at h
      cases h
      refine ⟨hb, hf, ⟨hb, rfl, ?_, ?_, ?_, ?_, ?_, ?_⟩, rfl, rfl, Nat.le_of_not_lt hbig⟩
      · exact length_replicate
      · exact Nat.zero_le _
      · exact Nat.zero_le _
      · exact Nat.zero_le _
      · rintro ds ⟨⟩
      · intro cs hcs
        rw [← Option.some.inj hcs, length_replicate]

theorem xmetaInit_haveState {now fileSize bufferSize : Int64} {m : Xmeta}
    (h : xmetaInit now fileSize bufferSize = .ok m) :
    m.haveState = true ∧ m.digests = none ∧
      m.blockcrc = some (replicate m.nblocks.toNat xmetaCrcUnset) := by
  rw [xmetaInit] at h
  by_cases hbad : bufferSize ≤ 0 ∨ fileSize < 0
  · rw [if_pos hbad] at h
    cases h
  · rw [if_neg hbad] at h
    by_cases hbig : xmetaMaxBlocks < (xmetaNblocks fileSize bufferSize).toNat
    · simp only [if_pos hbig] at h
      cases h
    · simp only [if_neg hbig] at h
      cases h
      exact ⟨rfl, rfl, rfl⟩

/-! ## The present bitmap -/

namespace Xmeta

/-- `brix_xmeta_block_set`; a block out of range is ignored. -/
def blockSet (m : Xmeta) (i : ℕ) : Xmeta :=
  if i < m.nblocks.toNat then { m with bitmap := Bitmap.set m.bitmap i } else m

theorem blockSet_of_lt (m : Xmeta) {i : ℕ} (h : i < m.nblocks.toNat) :
    m.blockSet i = { m with bitmap := Bitmap.set m.bitmap i } := if_pos h

theorem blockSet_of_le (m : Xmeta) {i : ℕ} (h : m.nblocks.toNat ≤ i) : m.blockSet i = m :=
  if_neg (Nat.not_lt.mpr h)

/-- `brix_xmeta_block_test`; a block out of range is absent. -/
def blockTest (m : Xmeta) (i : ℕ) : Bool :=
  if i < m.nblocks.toNat then Bitmap.test m.bitmap i else false

/-- `brix_xmeta_complete`: are all blocks present? -/
def complete (m : Xmeta) : Bool := (range m.nblocks.toNat).all m.blockTest

end Xmeta

end BrixCache
