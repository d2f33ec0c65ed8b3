import BrixCache.Lib.Extent
import BrixCache.Meta.Carrier

/-!
# The cache's view of the record

`fs/cache/cinfo.c`: the header the cache works with, its two-way mapping to the
metadata record, and the operations that read, modify and write one path's
record. A path's record is an `Option Xmeta` — what a load returns, `none` when
there is none or it cannot be read. Each read-modify-write runs under the path's
lock and is a function to the record it saves; `cinfoWrite` is what a load finds
after a save that it reaches (`Meta/PathSave.lean`).
-/

namespace BrixCache

/-- `NGX_DECLINED` and `NGX_ERROR`. -/
inductive NgxRc : Type where
  | declined : NgxRc
  | error : NgxRc
  deriving DecidableEq

/-! ## The header -/

/-- `BRIX_CINFO_F_*`, one field a bit. -/
structure CinfoFlags : Type where
  complete : Bool
  someBlocks : Bool
  verified : Bool
  /-- local writes pending write-back -/
  dirty : Bool
  expires : Bool
  deriving DecidableEq

/-- `brix_cache_cinfo_t`, less its magic and version. -/
structure Cinfo : Type extends XmetaOrigin where
  flags : CinfoFlags
  /-- bytes per block -/
  blockSize : UInt32
  /-- origin permission bits -/
  mode : UInt32
  size : UInt64
  mtime : UInt64
  nblocks : UInt64
  accessCount : UInt64
  bytesServed : UInt64
  lastAccess : UInt64
  dirtyLo : UInt64
  dirtyHi : UInt64
  dirtySince : UInt64
  flushGen : UInt64
  lastFlush : UInt64
  bytesFlushed : UInt64
  expiresAt : UInt64
  filledAt : UInt64
  deriving DecidableEq

def cacheDirtyBlock : UInt32 := 1024 * 1024

/-- `brix_cache_cinfo_nblocks` -/
def cinfoNblocks (size : UInt64) (blockSize : UInt32) : UInt64 :=
  if size = 0 ∨ blockSize = 0 then 0
  else (size + blockSize.toUInt64 - 1) / blockSize.toUInt64

/-- `brix_cache_cinfo_present_count` -/
def cinfoPresentCount (bitmap : List UInt8) (nblocks : ℕ) : ℕ :=
  (List.range nblocks).countP (Bitmap.test bitmap)

/-- `brix_cache_cinfo_refresh_flags`: `COMPLETE` and `PARTIAL` from the bitmap. -/
def cinfoRefreshFlags (flags : CinfoFlags) (bitmap : List UInt8) (nblocks : ℕ) : CinfoFlags :=
  if nblocks = 0 then { flags with complete := true, someBlocks := false }
  else
    let present := cinfoPresentCount bitmap nblocks
    if present = nblocks then { flags with complete := true, someBlocks := false }
    else { flags with complete := false, someBlocks := decide (0 < present) }

theorem cinfoRefreshFlags_dirty (flags : CinfoFlags) (bitmap : List UInt8) (nblocks : ℕ) :
    (cinfoRefreshFlags flags bitmap nblocks).dirty = flags.dirty := by
  rw [cinfoRefreshFlags]
  split
  · rfl
  · simp only
    split <;> rfl

/-- The validity key: what a record must have been made for to be adopted. -/
structure CinfoKey : Type where
  size : UInt64
  blockSize : UInt32
  mtime : UInt64
  deriving DecidableEq

/-- `cinfo_init`: a fresh, all-absent header. -/
def cinfoInit (key : CinfoKey) : Cinfo :=
  { toXmetaOrigin := XmetaOrigin.empty, flags := ⟨false, false, false, false, false⟩,
    blockSize := key.blockSize, mode := 0, size := key.size, mtime := key.mtime,
    nblocks := cinfoNblocks key.size key.blockSize, accessCount := 0, bytesServed := 0,
    lastAccess := 0, dirtyLo := 0, dirtyHi := 0, dirtySince := 0, flushGen := 0, lastFlush := 0,
    bytesFlushed := 0, expiresAt := 0, filledAt := 0 }

/-! ## The mapping -/

def xmetaFVerified : UInt32 := 1

def xmetaFExpires : UInt32 := 2

/-- A validity string as long as its array allows, else dropped. -/
def cinfoClamp (cap : ℕ) (s : List UInt8) : List UInt8 := if s.length ≤ cap then s else []

/-- The strings of both mappings, clamped. -/
def cinfoClampOrigin (o : XmetaOrigin) : XmetaOrigin :=
  ⟨cinfoClamp 128 o.etag, cinfoClamp 16 o.cksAlg, cinfoClamp 129 o.cksHex⟩

/-- The present bitmap a stored header gets: the caller's when it covers the
geometry, else whole-file state from the `COMPLETE` flag. -/
def cinfoStoreBitmap (complete : Bool) (bitmap : Option (List UInt8)) (need : ℕ) : List UInt8 :=
  match bitmap with
  | some bits =>
    if need ≤ bits.length ∧ 0 < need then bits.take need
    else List.replicate need (if complete then 0xff else 0)
  | none => List.replicate need (if complete then 0xff else 0)

/-- `brix_cache_cinfo_to_xmeta` at time `now`. Block checksums are not the
cache's, and it has no digests. -/
def cinfoToXmeta (now : Int64) (hdr : Cinfo) (bitmap : Option (List UInt8)) :
    Except NgxRc Xmeta :=
  let bs := if hdr.blockSize ≠ 0 then hdr.blockSize else cacheDirtyBlock
  match xmetaInit now hdr.size.toInt64 bs.toUInt64.toInt64 with
  | .error _ => .error .error
  | .ok m => .ok
    { m with
      haveBlockcrc := false
      accessCnt := hdr.accessCount
      astatCount := if hdr.lastAccess ≠ 0 ∨ hdr.bytesServed ≠ 0 then 1 else 0
      astat :=
        if hdr.lastAccess ≠ 0 ∨ hdr.bytesServed ≠ 0 then
          { XmetaAStat.zero with
            attachTime := hdr.lastAccess.toInt64
            detachTime := hdr.lastAccess.toInt64
            bytesHit := hdr.bytesServed.toInt64 }
        else XmetaAStat.zero
      originMtime := hdr.mtime
      dirtyLo := hdr.dirtyLo
      dirtyHi := hdr.dirtyHi
      dirtySince := hdr.dirtySince
      flushGen := hdr.flushGen
      lastFlush := hdr.lastFlush
      bytesFlushed := hdr.bytesFlushed
      expiresAt := hdr.expiresAt
      filledAt := hdr.filledAt
      mode := hdr.mode
      stateFlags := (if hdr.flags.verified then xmetaFVerified else 0) |||
        (if hdr.flags.expires then xmetaFExpires else 0)
      toXmetaOrigin := cinfoClampOrigin hdr.toXmetaOrigin
      bitmap := cinfoStoreBitmap hdr.flags.complete bitmap (xmetaBitmapLen m.nblocks) }

/-- `brix_cache_cinfo_from_xmeta` -/
def cinfoFromXmeta (m : Xmeta) : Cinfo :=
  { toXmetaOrigin := cinfoClampOrigin m.toXmetaOrigin
    flags := cinfoRefreshFlags
      { complete := false, someBlocks := false,
        verified := decide (m.stateFlags &&& xmetaFVerified ≠ 0),
        dirty := decide (m.dirtyLo < m.dirtyHi),
        expires := decide (m.stateFlags &&& xmetaFExpires ≠ 0) } m.bitmap m.nblocks.toNat
    blockSize := m.bufferSize.toUInt64.toUInt32
    size := m.fileSize.toUInt64
    mtime := m.originMtime
    nblocks := m.nblocks
    accessCount := m.accessCnt
    bytesServed := m.astat.bytesHit.toUInt64
    lastAccess := m.astat.detachTime.toUInt64
    dirtyLo := m.dirtyLo
    dirtyHi := m.dirtyHi
    dirtySince := m.dirtySince
    flushGen := m.flushGen
    lastFlush := m.lastFlush
    bytesFlushed := m.bytesFlushed
    expiresAt := m.expiresAt
    filledAt := m.filledAt
    mode := m.mode }

/-! ## The record's operations -/

/-- Does a record describe the same origin file? -/
def cinfoMatches (m : Xmeta) (key : CinfoKey) : Bool :=
  decide (m.fileSize.toUInt64 = key.size) && decide (m.bufferSize.toUInt64 = key.blockSize.toUInt64)
    && decide (m.originMtime = key.mtime)

/-- `cinfo_xmeta_write` that succeeds: what is recorded from then on. -/
def cinfoWrite (m : Xmeta) : Option Xmeta := some m.persisted

/-- `brix_cache_cinfo_load`: the header and the bitmap, none for an empty file. -/
def cinfoLoad (rec : Option Xmeta) : Except NgxRc (Cinfo × Option (List UInt8)) :=
  match rec with
  | none => .error .declined
  | some m =>
    let blen := xmetaBitmapLen m.nblocks
    .ok (cinfoFromXmeta m, if 0 < blen then some (m.bitmap.take blen) else none)

/-- `cinfo_rmw_load`: the record when it describes the same file, else a fresh
one. -/
def cinfoRmwLoad (now : Int64) (rec : Option Xmeta) (key : CinfoKey) : Except NgxRc Xmeta :=
  match rec with
  | some m =>
    if cinfoMatches m key then .ok m else cinfoToXmeta now (cinfoInit key) none
  | none => cinfoToXmeta now (cinfoInit key) none

/-- `brix_cache_cinfo_record_block`: the record it saves. -/
def cinfoRecordBlock (now : Int64) (rec : Option Xmeta) (key : CinfoKey) (mode : UInt32)
    (blk : UInt64) : Except NgxRc Xmeta :=
  if key.blockSize = 0 then .error .error
  else if cinfoNblocks key.size key.blockSize ≤ blk then .error .error
  else
    match cinfoRmwLoad now rec key with
    | .error e => .error e
    | .ok xm => .ok ({ xm with mode := if mode ≠ 0 then mode else xm.mode }.blockSet blk.toNat)

/-- `brix_cache_cinfo_mark_dirty`: the record it saves. -/
def cinfoMarkDirty (now : Int64) (rec : Option Xmeta) (key : CinfoKey) (off len : UInt64) :
    Except NgxRc Xmeta :=
  if key.blockSize = 0 ∨ len = 0 then .error .error
  else
    match cinfoRmwLoad now rec key with
    | .error e => .error e
    | .ok xm => .ok
      (if xm.dirtyHi ≤ xm.dirtyLo then
        -- clean to dirty
        { xm with dirtyLo := off, dirtyHi := off + len, dirtySince := now.toUInt64 }
      else
        -- widen; keep dirtySince
        { xm with
          dirtyLo := if off < xm.dirtyLo then off else xm.dirtyLo
          dirtyHi := if xm.dirtyHi < off + len then off + len else xm.dirtyHi })

/-- `brix_cache_cinfo_mark_clean`: the record it saves. -/
def cinfoMarkClean (now : Int64) (rec : Option Xmeta) (bytes : UInt64) : Except NgxRc Xmeta :=
  match rec with
  | none => .error .declined
  | some xm => .ok
    { xm with
      dirtyLo := 0
      dirtyHi := 0
      dirtySince := 0
      flushGen := xm.flushGen + 1
      lastFlush := now.toUInt64
      bytesFlushed := xm.bytesFlushed + bytes }

/-- `brix_cache_cinfo_dirty_extent`: bounds and since when, `DECLINED` when
clean. -/
def cinfoDirtyExtent (rec : Option Xmeta) : Except NgxRc (UInt64 × UInt64 × UInt64) :=
  match cinfoLoad rec with
  | .error e => .error e
  | .ok (h, _) =>
    if h.flags.dirty = false ∨ h.dirtyHi ≤ h.dirtyLo then .error .declined
    else .ok (h.dirtyLo, h.dirtyHi, h.dirtySince)

/-! ## The slot of a path -/

def XmetaCarriers.slot (c : XmetaCarriers) : Option Xmeta :=
  match xmetaPathLoad c with
  | .ok m => some m
  | .error _ => none

variable {m : Xmeta} {now : Int64} {key : CinfoKey} {rec : Option Xmeta}

/-! ## What the operations keep -/

/-- The dirty extent of a record, none when it is clean. -/
def Xmeta.extent (m : Xmeta) : Option Extent :=
  if h : m.dirtyLo.toNat < m.dirtyHi.toNat then some ⟨m.dirtyLo.toNat, m.dirtyHi.toNat, h⟩
  else none

theorem Xmeta.extent_of_lt (h : m.dirtyLo.toNat < m.dirtyHi.toNat) :
    m.extent = some ⟨m.dirtyLo.toNat, m.dirtyHi.toNat, h⟩ := dif_pos h

theorem Xmeta.extent_of_le (h : m.dirtyHi.toNat ≤ m.dirtyLo.toNat) :
    m.extent = none := dif_neg (Nat.not_lt.mpr h)

theorem Xmeta.persisted_extent (h : m.haveState = true) :
    m.persisted.extent = m.extent := by
  have hstate : m.persisted.toXmetaState = m.toXmetaState := if_pos h
  have hlo : m.persisted.dirtyLo = m.dirtyLo := congrArg XmetaState.dirtyLo hstate
  have hhi : m.persisted.dirtyHi = m.dirtyHi := congrArg XmetaState.dirtyHi hstate
  rw [Xmeta.extent, Xmeta.extent]
  simp only [hlo, hhi]

theorem Xmeta.persisted_extent_of_no_state (h : m.haveState = false) :
    m.persisted.extent = none := by
  have hstate : m.persisted.toXmetaState = XmetaState.zero := if_neg (by rw [h]; decide)
  have hlo : m.persisted.dirtyLo = 0 := congrArg XmetaState.dirtyLo hstate
  have hhi : m.persisted.dirtyHi = 0 := congrArg XmetaState.dirtyHi hstate
  refine Xmeta.extent_of_le ?_
  rw [hlo, hhi]

theorem Xmeta.persisted_matches (h : m.haveState = true) (key : CinfoKey) :
    cinfoMatches m.persisted key = cinfoMatches m key := by
  have hstate : m.persisted.toXmetaState = m.toXmetaState := if_pos h
  have hmtime : m.persisted.originMtime = m.originMtime := congrArg XmetaState.originMtime hstate
  rw [cinfoMatches, cinfoMatches, hmtime]
  rfl

theorem cinfoToXmeta_eq_ok {hdr : Cinfo} {bitmap : Option (List UInt8)}
    (h : cinfoToXmeta now hdr bitmap = .ok m) :
    0 < m.bufferSize ∧ 0 ≤ m.fileSize ∧ m.nblocks.toNat ≤ xmetaMaxBlocks ∧
      m.nblocks = xmetaNblocks m.fileSize m.bufferSize ∧ m.haveState = true ∧
      m.fileSize = hdr.size.toInt64 ∧
      m.bufferSize = (if hdr.blockSize ≠ 0 then hdr.blockSize else cacheDirtyBlock).toUInt64.toInt64 ∧
      m.originMtime = hdr.mtime ∧ m.dirtyLo = hdr.dirtyLo ∧ m.dirtyHi = hdr.dirtyHi ∧
      m.bitmap = cinfoStoreBitmap hdr.flags.complete bitmap (xmetaBitmapLen m.nblocks) ∧
      m.haveBlockcrc = false ∧ m.digests = none := by
  rw [cinfoToXmeta] at h
  rcases hinit : xmetaInit now hdr.size.toInt64
    (if hdr.blockSize ≠ 0 then hdr.blockSize else cacheDirtyBlock).toUInt64.toInt64 with e | x
  · simp only [hinit] at h
    cases h
  · simp only [hinit] at h
    obtain ⟨hb, hf, hwf, hsize, hbs, hle⟩ := xmetaInit_eq_ok hinit
    have hstate := xmetaInit_haveState hinit
    cases h
    refine ⟨hwf.bufferSize_pos, ?_, hle, hwf.nblocks_eq, hstate.1, hsize, hbs, rfl, rfl, rfl, rfl,
      rfl, hstate.2.1⟩
    rw [hsize]
    exact hf

theorem cinfoToXmeta_init_matches
    (hbs : key.blockSize ≠ 0) (h : cinfoToXmeta now (cinfoInit key) none = .ok m) :
    cinfoMatches m key = true := by
  obtain ⟨-, -, -, -, -, hsize, hbuf, hmtime, -⟩ := cinfoToXmeta_eq_ok h
  have hbuf' : m.bufferSize = key.blockSize.toUInt64.toInt64 := by
    rw [hbuf]
    exact congrArg (fun b : UInt32 => b.toUInt64.toInt64) (if_pos hbs)
  have hsize' : m.fileSize.toUInt64 = key.size := by
    rw [hsize]
    exact UInt64.toUInt64_toInt64 key.size
  have hgran : m.bufferSize.toUInt64 = key.blockSize.toUInt64 := by
    rw [hbuf']
    exact UInt64.toUInt64_toInt64 _
  rw [cinfoMatches, Bool.and_eq_true, Bool.and_eq_true, decide_eq_true_eq, decide_eq_true_eq,
    decide_eq_true_eq]
  exact ⟨⟨hsize', hgran⟩, hmtime⟩

theorem cinfoRmwLoad_eq_ok (hbs : key.blockSize ≠ 0) (h : cinfoRmwLoad now rec key = .ok m) :
    cinfoMatches m key = true ∧
      (rec = some m ∨ ((∀ x, rec = some x → cinfoMatches x key = false) ∧
        cinfoToXmeta now (cinfoInit key) none = .ok m)) := by
  cases rec with
  | none =>
    rw [cinfoRmwLoad] at h
    refine ⟨cinfoToXmeta_init_matches hbs h, .inr ⟨?_, h⟩⟩
    rintro x ⟨⟩
  | some x =>
    rw [cinfoRmwLoad] at h
    rcases hm : cinfoMatches x key with _ | _
    · rw [hm, if_neg Bool.false_ne_true] at h
      refine ⟨cinfoToXmeta_init_matches hbs h, .inr ⟨?_, h⟩⟩
      intro y hy
      rw [← Option.some.inj hy]
      exact hm
    · rw [hm, if_pos rfl] at h
      cases h
      exact ⟨hm, .inl rfl⟩

theorem cinfoToXmeta_init_extent
    (h : cinfoToXmeta now (cinfoInit key) none = .ok m) : m.extent = none := by
  obtain ⟨-, -, -, -, -, -, -, -, hlo, hhi, -⟩ := cinfoToXmeta_eq_ok h
  refine Xmeta.extent_of_le ?_
  rw [hlo, hhi]
  exact Nat.le_refl _

theorem cinfoRecordBlock_eq_ok {mode : UInt32}
    {blk : UInt64} (h : cinfoRecordBlock now rec key mode blk = .ok m) :
    key.blockSize ≠ 0 ∧ blk < cinfoNblocks key.size key.blockSize ∧
      ∃ xm, cinfoRmwLoad now rec key = .ok xm ∧
        m = ({ xm with mode := if mode ≠ 0 then mode else xm.mode } : Xmeta).blockSet blk.toNat := by
  rw [cinfoRecordBlock] at h
  by_cases hz : key.blockSize = 0
  · rw [if_pos hz] at h
    cases h
  · rw [if_neg hz] at h
    by_cases hr : cinfoNblocks key.size key.blockSize ≤ blk
    · rw [if_pos hr] at h
      cases h
    · rw [if_neg hr] at h
      rcases hload : cinfoRmwLoad now rec key with e | xm
      · rw [hload] at h
        cases h
      · rw [hload] at h
        exact ⟨hz, UInt64.not_le.mp hr, xm, rfl, (Except.ok.inj h).symm⟩

/-- A mark joins the extent of the record, and changes nothing else that counts. -/
theorem cinfoMarkDirty_eq_ok {off len : UInt64} (hfit : off.toNat + len.toNat < 2 ^ 64)
    (h : cinfoMarkDirty now rec key off len = .ok m) :
    ∃ (xm : Xmeta) (hlt : off.toNat < off.toNat + len.toNat),
      key.blockSize ≠ 0 ∧ cinfoRmwLoad now rec key = .ok xm ∧
      m.extent = some ((⟨off.toNat, off.toNat + len.toNat, hlt⟩ : Extent).joinOption xm.extent) ∧
      m = { xm with dirtyLo := m.dirtyLo, dirtyHi := m.dirtyHi, dirtySince := m.dirtySince } := by
  have hsum : (off + len).toNat = off.toNat + len.toNat := by
    rw [UInt64.toNat_add, Nat.mod_eq_of_lt hfit]
  rw [cinfoMarkDirty] at h
  by_cases hbad : key.blockSize = 0 ∨ len = 0
  · rw [if_pos hbad] at h
    cases h
  · rw [if_neg hbad] at h
    have hpos : 0 < len.toNat := by
      refine Nat.pos_of_ne_zero fun hz => hbad (.inr ?_)
      exact UInt64.toNat_inj.mp hz
    rcases hload : cinfoRmwLoad now rec key with e | xm
    · rw [hload] at h
      cases h
    · rw [hload] at h
      cases h
      refine ⟨xm, by omega, fun hz => hbad (.inl hz), rfl, ?_, ?_⟩
      · by_cases hclean : xm.dirtyHi ≤ xm.dirtyLo
        · rw [if_pos hclean, xm.extent_of_le (UInt64.le_iff_toNat_le.mp hclean)]
          have hlt : off.toNat < (off + len).toNat := by omega
          refine (Xmeta.extent_of_lt hlt).trans (congrArg some ?_)
          exact Extent.ext rfl hsum
        · have hdirty : xm.dirtyLo.toNat < xm.dirtyHi.toNat :=
            Nat.not_le.mp fun hle => hclean (UInt64.le_iff_toNat_le.mpr hle)
          rw [if_neg hclean, xm.extent_of_lt hdirty]
          have hlo : (if off < xm.dirtyLo then off else xm.dirtyLo).toNat =
              min off.toNat xm.dirtyLo.toNat := by
            by_cases hc : off < xm.dirtyLo
            · rw [if_pos hc, Nat.min_eq_left (Nat.le_of_lt (UInt64.lt_iff_toNat_lt.mp hc))]
            · rw [if_neg hc, Nat.min_eq_right
                (Nat.not_lt.mp fun hlt => hc (UInt64.lt_iff_toNat_lt.mpr hlt))]
          have hhi : (if xm.dirtyHi < off + len then off + len else xm.dirtyHi).toNat =
              max (off.toNat + len.toNat) xm.dirtyHi.toNat := by
            by_cases hc : xm.dirtyHi < off + len
            · rw [if_pos hc, ← hsum,
                Nat.max_eq_left (Nat.le_of_lt (UInt64.lt_iff_toNat_lt.mp hc))]
            · rw [if_neg hc, ← hsum, Nat.max_eq_right
                (Nat.not_lt.mp fun hlt => hc (UInt64.lt_iff_toNat_lt.mpr hlt))]
          have hlt : (if off < xm.dirtyLo then off else xm.dirtyLo).toNat <
              (if xm.dirtyHi < off + len then off + len else xm.dirtyHi).toNat := by
            rw [hlo, hhi]
            omega
          refine (Xmeta.extent_of_lt hlt).trans (congrArg some ?_)
          exact Extent.ext hlo hhi
      · by_cases hclean : xm.dirtyHi ≤ xm.dirtyLo
        · rw [if_pos hclean]
        · rw [if_neg hclean]

theorem cinfoMarkClean_extent {bytes : UInt64}
    (h : cinfoMarkClean now rec bytes = .ok m) : m.extent = none := by
  cases rec with
  | none => cases h
  | some xm =>
    cases h
    exact Xmeta.extent_of_le (Nat.le_refl 0)

theorem cinfoDirtyExtent_eq_ok {lo hi since : UInt64}
    (h : cinfoDirtyExtent rec = .ok (lo, hi, since)) :
    ∃ (m : Xmeta) (hlt : lo.toNat < hi.toNat), rec = some m ∧
      m.extent = some ⟨lo.toNat, hi.toNat, hlt⟩ := by
  rw [cinfoDirtyExtent] at h
  cases rec with
  | none => cases h
  | some m =>
    simp only [cinfoLoad] at h
    by_cases hclean : (cinfoFromXmeta m).flags.dirty = false ∨
        (cinfoFromXmeta m).dirtyHi ≤ (cinfoFromXmeta m).dirtyLo
    · rw [if_pos hclean] at h
      cases h
    · rw [if_neg hclean] at h
      obtain ⟨hlo, hhi, -⟩ : m.dirtyLo = lo ∧ m.dirtyHi = hi ∧ m.dirtySince = since := by
        have := Except.ok.inj h
        obtain ⟨h₁, h₂⟩ := Prod.mk.inj this
        obtain ⟨h₂, h₃⟩ := Prod.mk.inj h₂
        exact ⟨h₁, h₂, h₃⟩
      have hlt : m.dirtyLo.toNat < m.dirtyHi.toNat :=
        Nat.not_le.mp fun hle => hclean (.inr (UInt64.le_iff_toNat_le.mpr hle))
      subst hlo hhi
      exact ⟨m, hlt, rfl, Xmeta.extent_of_lt hlt⟩

end BrixCache
