import BrixCache.Cache.HeaderStore

/-!
# What a stored header loads as

`brix_cstore_cinfo_store` and a `brix_cstore_cinfo_load` that misses the header cache, in every
metadata mode. By path the store keeps the bitmap it finds whenever that has the right number of
bytes, whichever file and version it was made for, and the load makes the header's completeness
out of the bitmap.
-/

namespace BrixCache

open List

/-- `BRIX_CMETA_*`, resolved. -/
inductive CmetaMode : Type where
  /-- `BRIX_CMETA_LOCAL`: the record is shared with the writers that go by path -/
  | path : CmetaMode
  | xattr : CmetaMode
  | sidecar : CmetaMode
  deriving DecidableEq

/-- `brix_cstore_cinfo_store`: the record it saves over the one recorded. -/
def CmetaMode.cstoreCinfoStore (mode : CmetaMode) (now : Int64) (rec : Option Xmeta) (ci : Cinfo) :
    Except NgxRc Xmeta :=
  match mode with
  | .path => cinfoToXmeta now ci (cstoreReadBitmap rec ci)
  | .xattr | .sidecar => cinfoToXmeta now ci none

/-- `brix_cstore_cinfo_load` past the header cache. -/
def CmetaMode.cstoreCinfoLoad (mode : CmetaMode) (rec : Option Xmeta) : Except NgxRc Cinfo :=
  match mode with
  | .path =>
    match cinfoLoad rec with
    | .ok (ci, _) => .ok ci
    | .error e => .error e
  | .xattr | .sidecar =>
    match rec with
    | some m => .ok (cinfoFromXmeta m)
    | none => .error .declined

/-! ## The record of a path -/

variable {r m : Xmeta} {now : Int64} {ci : Cinfo} {mode : CmetaMode} {rec : Option Xmeta}

theorem XmetaCarriers.slot_geometry {c : XmetaCarriers} (h : c.slot = some r) :
    r.Geometry := by
  have hload : xmetaPathLoad c = .ok r := by
    rw [XmetaCarriers.slot] at h
    rcases hl : xmetaPathLoad c with e | m
    · rw [hl] at h
      cases h
    · rw [hl] at h
      rw [Option.some.inj h]
  rw [xmetaPathLoad] at hload
  split at hload
  · exact xmetaDecode_geometry hload
  · split at hload
    · cases hload
    · rw [xmetaPathReadSidecar] at hload
      split at hload
      · cases hload
      · exact xmetaDecode_geometry hload

/-- The blocks a header's record has. -/
def Cinfo.blocks (ci : Cinfo) : UInt64 :=
  xmetaNblocks ci.size.toInt64
    (if ci.blockSize ≠ 0 then ci.blockSize else cacheDirtyBlock).toUInt64.toInt64

/-- The recorded record whose bitmap a store adopts: by path, one with as many bytes of bitmap as
the header asks for, and enough. -/
def cstoreAdopts (mode : CmetaMode) (rec : Option Xmeta) (ci : Cinfo) : Option Xmeta :=
  match mode, rec with
  | .path, some r =>
    if xmetaBitmapLen r.nblocks = xmetaBitmapLen ci.nblocks ∧
        xmetaBitmapLen ci.blocks ≤ xmetaBitmapLen ci.nblocks ∧ 0 < xmetaBitmapLen ci.blocks then
      some r
    else none
  | _, _ => none

/-! ## Flags and strings -/

theorem cinfoRefreshFlags_verified (flags : CinfoFlags) (bitmap : List UInt8) (n : ℕ) :
    (cinfoRefreshFlags flags bitmap n).verified = flags.verified ∧
      (cinfoRefreshFlags flags bitmap n).expires = flags.expires := by
  unfold cinfoRefreshFlags
  dsimp only
  split
  · exact ⟨rfl, rfl⟩
  · split <;> exact ⟨rfl, rfl⟩

theorem cinfoRefreshFlags_complete (flags : CinfoFlags) (bitmap : List UInt8) (n : ℕ) :
    (cinfoRefreshFlags flags bitmap n).complete = true ↔
      ∀ i < n, Bitmap.test bitmap i = true := by
  have hcount : cinfoPresentCount bitmap n = n ↔ ∀ i < n, Bitmap.test bitmap i = true := by
    rw [cinfoPresentCount]
    have := countP_eq_length (p := Bitmap.test bitmap) (l := range n)
    rw [length_range] at this
    simpa using this
  unfold cinfoRefreshFlags
  dsimp only
  split
  · rename_i hzero
    simp [hzero]
  · split
    · rename_i hall
      simpa using hcount.mp hall
    · rename_i hnot
      simpa using fun hall => hnot (hcount.mpr hall)

theorem cinfoClamp_clamp (cap : ℕ) (s : List UInt8) :
    cinfoClamp cap (cinfoClamp cap s) = cinfoClamp cap s := by
  by_cases h : s.length ≤ cap
  · rw [cinfoClamp, cinfoClamp, if_pos h, if_pos h]
  · rw [cinfoClamp, cinfoClamp, if_neg h]
    simp

theorem cinfoClamp_eq_iff (cap : ℕ) (s : List UInt8) : cinfoClamp cap s = s ↔ s.length ≤ cap := by
  rw [cinfoClamp]
  by_cases h : s.length ≤ cap
  · simp [h]
  · rw [if_neg h]
    refine ⟨fun hnil => ?_, fun hle => absurd hle h⟩
    rw [← hnil] at h
    simp at h

theorem stateFlags_test (v e : Bool) :
    decide (((if v then xmetaFVerified else 0) ||| (if e then xmetaFExpires else 0)) &&&
      xmetaFVerified ≠ 0) = v ∧
    decide (((if v then xmetaFVerified else 0) ||| (if e then xmetaFExpires else 0)) &&&
      xmetaFExpires ≠ 0) = e := by
  cases v <;> cases e <;> decide

theorem cinfoToXmeta_fields {hdr : Cinfo} {bitmap : Option (List UInt8)}
    (h : cinfoToXmeta now hdr bitmap = .ok m) :
    m.expiresAt = hdr.expiresAt ∧ m.toXmetaOrigin = cinfoClampOrigin hdr.toXmetaOrigin ∧
      m.stateFlags = (if hdr.flags.verified then xmetaFVerified else 0) |||
        (if hdr.flags.expires then xmetaFExpires else 0) := by
  unfold cinfoToXmeta at h
  dsimp only at h
  split at h
  · cases h
  · cases h
    exact ⟨rfl, rfl, rfl⟩

/-! ## The bitmap -/

theorem Bitmap.test_take {bm : List UInt8} {n i : ℕ} (h : i / 8 < n) :
    Bitmap.test (bm.take n) i = Bitmap.test bm i := by
  simp [Bitmap.test, getElem?_take_of_lt h]

/-- The bitmap of a stored header is adopted, or all of one kind. -/
theorem cstoreCinfoStore_bitmap (hrec : ∀ r, rec = some r → r.Geometry)
    (h : CmetaMode.cstoreCinfoStore mode now rec ci = .ok m) :
    m.nblocks = ci.blocks ∧ m.bitmap =
      match cstoreAdopts mode rec ci with
      | some r => r.bitmap.take (xmetaBitmapLen ci.blocks)
      | none => replicate (xmetaBitmapLen ci.blocks)
          (if ci.flags.complete then 0xff else 0) := by
  have hmap : ∃ bits, cinfoToXmeta now ci bits = .ok m ∧
      bits = (if mode = .path then cstoreReadBitmap rec ci else none) := by
    cases mode with
    | path | xattr | sidecar => exact ⟨_, h, rfl⟩
  obtain ⟨bits, hbits, heq⟩ := hmap
  obtain ⟨-, -, -, hnb, -, hsize, hbs, -, -, -, hbm, -, -⟩ := cinfoToXmeta_eq_ok hbits
  have hblocks : m.nblocks = ci.blocks := by rw [hnb, hsize, hbs, Cinfo.blocks]
  refine ⟨hblocks, ?_⟩
  rw [hbm, hblocks, heq]
  cases mode with
  | xattr | sidecar => rfl
  | path =>
    rw [if_pos rfl]
    rcases rec with _ | r
    · rfl
    · have hlen := (hrec r rfl).bitmap_length
      have htake : r.bitmap.take (xmetaBitmapLen r.nblocks) = r.bitmap := by
        rw [← hlen, take_length]
      simp only [cstoreReadBitmap, cinfoLoad, cstoreAdopts, htake]
      by_cases hpos : 0 < xmetaBitmapLen r.nblocks
      · simp only [if_pos hpos, Option.map_some, Option.getD_some, hlen]
        by_cases hsame : xmetaBitmapLen r.nblocks = xmetaBitmapLen ci.nblocks
        · have hlen' : r.bitmap.length = xmetaBitmapLen ci.nblocks := hlen.trans hsame
          by_cases hcover : xmetaBitmapLen ci.blocks ≤ xmetaBitmapLen ci.nblocks ∧
              0 < xmetaBitmapLen ci.blocks
          · simp [hsame, cinfoStoreBitmap, hlen', hcover]
          · simp only [hsame, if_true, cinfoStoreBitmap, hlen', if_neg hcover, true_and]
        · simp [hsame, cinfoStoreBitmap]
      · have hempty : xmetaBitmapLen r.nblocks = 0 := Nat.eq_zero_of_not_pos hpos
        have hnone : ¬ (xmetaBitmapLen r.nblocks = xmetaBitmapLen ci.nblocks ∧
            xmetaBitmapLen ci.blocks ≤ xmetaBitmapLen ci.nblocks ∧
            0 < xmetaBitmapLen ci.blocks) := by
          rintro ⟨hs, hle, hp⟩
          omega
        rw [if_neg hnone]
        simp [hempty, cinfoStoreBitmap]

/-! ## What a load answers -/

/-- A load answers for a stored header: its geometry, validity and flags, and blocks present only
if the header is complete or a record of the same version had them. -/
structure HeaderAnswers (ci h : Cinfo) (old : Option Xmeta) (present : ℕ → Bool) : Prop where
  size : h.size = ci.size
  mtime : h.mtime = ci.mtime
  blockSize : h.blockSize = ci.blockSize
  expiresAt : h.expiresAt = ci.expiresAt
  expires : h.flags.expires = ci.flags.expires
  cksAlg : h.cksAlg = ci.cksAlg
  cksHex : h.cksHex = ci.cksHex
  verified : h.flags.verified = ci.flags.verified
  complete : h.flags.complete = true ↔ ci.flags.complete = true
  present : ∀ blk, present blk = true → ci.flags.complete = true ∨
    ∃ r, old = some r ∧ cinfoMatches r ci.key = true ∧ r.blockTest blk = true

/-- The stores that go right. The header has a block size and strings that fit their arrays, and
an empty file is complete. If a bitmap is adopted, a complete header adopts a whole one, and any
other one that is not whole, and is of the same version or empty. -/
structure HeaderStoreGood (mode : CmetaMode) (rec : Option Xmeta) (ci : Cinfo) : Prop where
  blockSize : ci.blockSize ≠ 0
  cksAlg : ci.cksAlg.length ≤ 16
  cksHex : ci.cksHex.length ≤ 129
  empty : ci.blocks.toNat = 0 → ci.flags.complete = true
  whole : ∀ r, cstoreAdopts mode rec ci = some r →
    (ci.flags.complete = true ↔ ∀ i < ci.blocks.toNat, Bitmap.test r.bitmap i = true)
  same : ∀ r, cstoreAdopts mode rec ci = some r → ci.flags.complete = false →
    cinfoMatches r ci.key = true ∨ ∀ i < ci.blocks.toNat, Bitmap.test r.bitmap i = false

theorem eq_of_cstoreAdopts (h : cstoreAdopts mode rec ci = some r) : rec = some r := by
  unfold cstoreAdopts at h
  split at h
  · split at h
    · exact h
    · cases h
  · cases h

theorem cstoreCinfoStore_test (hrec : ∀ r, rec = some r → r.Geometry)
    (h : CmetaMode.cstoreCinfoStore mode now rec ci = .ok m) {i : ℕ} (hi : i < ci.blocks.toNat) :
    Bitmap.test m.bitmap i =
      match cstoreAdopts mode rec ci with
      | some r => Bitmap.test r.bitmap i
      | none => ci.flags.complete := by
  have hbyte : i / 8 < xmetaBitmapLen ci.blocks := Bitmap.div_lt_bytes hi
  rw [(cstoreCinfoStore_bitmap hrec h).2]
  rcases cstoreAdopts mode rec ci with _ | r
  · rcases ci.flags.complete with _ | _
    · exact Bitmap.test_replicate_zero _ _
    · exact Bitmap.test_replicate_full hbyte
  · exact Bitmap.test_take hbyte

theorem nblocks_of_matches (hr : r.Geometry)
    (h : cinfoMatches r ci.key = true) : r.nblocks = ci.blocks := by
  rw [cinfoMatches, Bool.and_eq_true, Bool.and_eq_true, decide_eq_true_eq, decide_eq_true_eq] at h
  obtain ⟨⟨hsize, hgran⟩, -⟩ := h
  have hsize' : r.fileSize = ci.size.toInt64 := by
    have := congrArg UInt64.toInt64 hsize
    rwa [Int64.toInt64_toUInt64] at this
  have hgran' : r.bufferSize =
      (if ci.blockSize ≠ 0 then ci.blockSize else cacheDirtyBlock).toUInt64.toInt64 := by
    have := congrArg UInt64.toInt64 hgran
    rwa [Int64.toInt64_toUInt64] at this
  rw [hr.nblocks_eq, hsize', hgran', Cinfo.blocks]

/-- The header `h` that a load gives where `ci` was stored over the record `m` -/
structure HeaderLoaded (ci h : Cinfo) (m : Xmeta) : Prop where
  size : h.size = ci.size
  mtime : h.mtime = ci.mtime
  blockSize : h.blockSize = if ci.blockSize ≠ 0 then ci.blockSize else cacheDirtyBlock
  expiresAt : h.expiresAt = ci.expiresAt
  expires : h.flags.expires = ci.flags.expires
  cksAlg : h.cksAlg = cinfoClamp 16 ci.cksAlg
  cksHex : h.cksHex = cinfoClamp 129 ci.cksHex
  verified : h.flags.verified = ci.flags.verified
  complete : h.flags.complete = true ↔ ∀ i < ci.blocks.toNat, Bitmap.test m.bitmap i = true
  present : ∀ blk, m.persisted.blockTest blk = true ↔
    blk < ci.blocks.toNat ∧ Bitmap.test m.bitmap blk = true

/-- What is read back of a header -/
theorem cinfoFromXmeta_loaded {bits : Option (List UInt8)}
    (hmap : cinfoToXmeta now ci bits = .ok m) :
    HeaderLoaded ci (cinfoFromXmeta m.persisted) m := by
  obtain ⟨-, -, -, hnb, hstate, hsize, hbs, hmtime, -⟩ := cinfoToXmeta_eq_ok hmap
  obtain ⟨hexpires, horigin, hflags⟩ := cinfoToXmeta_fields hmap
  have hkept : m.persisted.toXmetaState = m.toXmetaState := if_pos hstate
  have hblocks : m.nblocks = ci.blocks := by rw [hnb, hsize, hbs, Cinfo.blocks]
  have hsf : m.persisted.stateFlags =
      (if ci.flags.verified then xmetaFVerified else 0) |||
        (if ci.flags.expires then xmetaFExpires else 0) :=
    (congrArg XmetaState.stateFlags hkept).trans hflags
  obtain ⟨hv, he⟩ := stateFlags_test ci.flags.verified ci.flags.expires
  refine ⟨?_, ?_, ?_, ?_, ?_, ?_, ?_, ?_, ?_, ?_⟩
  · exact (congrArg Int64.toUInt64 hsize).trans (UInt64.toUInt64_toInt64 _)
  · exact (congrArg XmetaState.originMtime hkept).trans hmtime
  · change m.bufferSize.toUInt64.toUInt32 = _
    rw [hbs]
    exact toUInt32_granule _
  · exact (congrArg XmetaState.expiresAt hkept).trans hexpires
  · refine (cinfoRefreshFlags_verified _ _ _).2.trans ?_
    dsimp only
    rw [hsf]
    exact he
  · change cinfoClamp 16 m.toXmetaOrigin.cksAlg = _
    rw [horigin]
    exact cinfoClamp_clamp _ _
  · change cinfoClamp 129 m.toXmetaOrigin.cksHex = _
    rw [horigin]
    exact cinfoClamp_clamp _ _
  · refine (cinfoRefreshFlags_verified _ _ _).1.trans ?_
    dsimp only
    rw [hsf]
    exact hv
  · rw [← hblocks]
    exact cinfoRefreshFlags_complete _ _ _
  · intro blk
    change m.blockTest blk = true ↔ _
    rw [Xmeta.blockTest, hblocks]
    split
    · rename_i hlt
      simp [hlt]
    · rename_i hge
      simp [hge]

/-- **When a load answers for the stored header.** -/
theorem cstoreCinfoLoad_store_iff (c : XmetaCarriers) {mode : CmetaMode} {now : Int64}
    {ci : Cinfo} {m : Xmeta} (h : CmetaMode.cstoreCinfoStore mode now c.slot ci = .ok m) :
    (∃ hdr, CmetaMode.cstoreCinfoLoad mode (cinfoWrite m) = .ok hdr ∧
      HeaderAnswers ci hdr c.slot m.persisted.blockTest) ↔ HeaderStoreGood mode c.slot ci := by
  have hrec : ∀ r, c.slot = some r → r.Geometry := fun r => XmetaCarriers.slot_geometry
  have htest := fun i => cstoreCinfoStore_test (i := i) hrec h
  have hload : CmetaMode.cstoreCinfoLoad mode (cinfoWrite m) =
      .ok (cinfoFromXmeta m.persisted) := by
    cases mode <;> rfl
  have hl : HeaderLoaded ci (cinfoFromXmeta m.persisted) m := by
    cases mode with
    | path | xattr | sidecar => exact cinfoFromXmeta_loaded h
  constructor
  · rintro ⟨hdr, hload', hans⟩
    obtain rfl := Except.ok.inj (hload'.symm.trans hload)
    refine ⟨?_, ?_, ?_, ?_, ?_, ?_⟩
    · intro hzero
      have hbs := hl.blockSize.symm.trans hans.blockSize
      rw [if_neg (not_not.mpr hzero), hzero] at hbs
      exact absurd hbs (by decide)
    · exact (cinfoClamp_eq_iff _ _).mp (hl.cksAlg.symm.trans hans.cksAlg)
    · exact (cinfoClamp_eq_iff _ _).mp (hl.cksHex.symm.trans hans.cksHex)
    · intro hzero
      refine hans.complete.mp (hl.complete.mpr fun i hi => ?_)
      omega
    · intro r hr
      rw [← hans.complete, hl.complete]
      refine forall₂_congr fun i hi => ?_
      rw [htest i hi, hr]
    · intro r hr hopen
      by_cases hnone : ∀ i < ci.blocks.toNat, Bitmap.test r.bitmap i = false
      · exact .inr hnone
      · push Not at hnone
        obtain ⟨i, hi, hset⟩ := hnone
        have hbit : Bitmap.test m.bitmap i = true := by
          rw [htest i hi, hr]
          simpa using hset
        rcases hans.present i ((hl.present i).mpr ⟨hi, hbit⟩) with hc | ⟨r', hr', hmatch, -⟩
        · rw [hopen] at hc
          cases hc
        · rw [eq_of_cstoreAdopts hr] at hr'
          exact .inl (Option.some.inj hr' ▸ hmatch)
  · intro hgood
    refine ⟨_, hload, hl.size, hl.mtime, ?_, hl.expiresAt, hl.expires, ?_, ?_, hl.verified,
      ?_, ?_⟩
    · rw [hl.blockSize, if_pos hgood.blockSize]
    · rw [hl.cksAlg, (cinfoClamp_eq_iff _ _).mpr hgood.cksAlg]
    · rw [hl.cksHex, (cinfoClamp_eq_iff _ _).mpr hgood.cksHex]
    · rw [hl.complete]
      rcases hadopt : cstoreAdopts mode c.slot ci with _ | r
      · -- all or nothing
        simp only [hadopt] at htest
        constructor
        · intro hall
          rcases Nat.eq_zero_or_pos ci.blocks.toNat with hzero | hpos
          · exact hgood.empty hzero
          · rw [← htest 0 hpos]
            exact hall 0 hpos
        · intro hc i hi
          rw [htest i hi, hc]
      · rw [hgood.whole r hadopt]
        refine forall₂_congr fun i hi => ?_
        rw [htest i hi, hadopt]
    · intro blk hblk
      obtain ⟨hlt, hbit⟩ := (hl.present blk).mp hblk
      rw [htest blk hlt] at hbit
      rcases hadopt : cstoreAdopts mode c.slot ci with _ | r
      · rw [hadopt] at hbit
        exact .inl hbit
      · rw [hadopt] at hbit
        have hr := eq_of_cstoreAdopts hadopt
        rcases hc : ci.flags.complete with _ | _
        · rcases hgood.same r hadopt hc with hmatch | hnone
          · refine .inr ⟨r, hr, hmatch, ?_⟩
            rw [Xmeta.blockTest, nblocks_of_matches (hrec r hr) hmatch, if_pos hlt]
            exact hbit
          · exact absurd hbit (by simp [hnone blk hlt])
        · exact .inl rfl

/-- A header of a file of five bytes in blocks of two, as of mtime 7. -/
def sampleCinfo (complete : Bool) : Cinfo :=
  { cinfoInit ⟨5, 2, 7⟩ with flags := ⟨complete, false, true, false, false⟩ }

theorem cstoreCinfoLoad_store_iff_sample :
    ∃ m, CmetaMode.cstoreCinfoStore .path 0 (XmetaCarriers.slot ⟨[], none⟩) (sampleCinfo true) =
        .ok m ∧
      ((∃ hdr, CmetaMode.cstoreCinfoLoad .path (cinfoWrite m) = .ok hdr ∧
        HeaderAnswers (sampleCinfo true) hdr (XmetaCarriers.slot ⟨[], none⟩)
          m.persisted.blockTest) ↔
        HeaderStoreGood .path (XmetaCarriers.slot ⟨[], none⟩) (sampleCinfo true)) := by
  obtain ⟨m, hm⟩ : ∃ m, CmetaMode.cstoreCinfoStore .path 0 (XmetaCarriers.slot ⟨[], none⟩)
      (sampleCinfo true) = .ok m := ⟨_, rfl⟩
  exact ⟨m, hm, cstoreCinfoLoad_store_iff ⟨[], none⟩ hm⟩

theorem XmetaCarriers.slot_xattr (hm : m.WellFormed) (hr : m.Readable)
    {bytes : List UInt8} (henc : xmetaEncode m = .ok bytes)
    (hcap : (xmetaEncodePlan m).cap ≤ xmetaPathXattrMax) :
    XmetaCarriers.slot ⟨bytes, none⟩ = some m.persisted := by
  have hread : 0 < bytes.length ∧ bytes.length ≤ xmetaPathXattrMax :=
    ⟨xmetaEncode_length_pos hm henc, by rw [xmetaEncode_length hm henc]; exact hcap⟩
  rw [XmetaCarriers.slot, xmetaPathLoad, if_pos hread, xmetaDecode_encoded hm hr henc]

/-- Over the sample record, of mtime 0 and with two of its three blocks present: a complete
header loads as incomplete, and a header with nothing present has the two blocks. -/
theorem stored_header_takes_other_bitmap :
    ∃ c : XmetaCarriers, c.slot = some sampleXmeta.persisted ∧
      sampleXmeta.persisted.originMtime = 0 ∧
      (∃ m hdr, CmetaMode.cstoreCinfoStore .path 0 c.slot (sampleCinfo true) = .ok m ∧
        CmetaMode.cstoreCinfoLoad .path (cinfoWrite m) = .ok hdr ∧ hdr.flags.complete = false ∧
        ¬ HeaderAnswers (sampleCinfo true) hdr c.slot m.persisted.blockTest) ∧
      ∃ m hdr, CmetaMode.cstoreCinfoStore .path 0 c.slot (sampleCinfo false) = .ok m ∧
        CmetaMode.cstoreCinfoLoad .path (cinfoWrite m) = .ok hdr ∧ hdr.mtime = 7 ∧
        m.persisted.blockTest 0 = true ∧
        ¬ HeaderAnswers (sampleCinfo false) hdr c.slot m.persisted.blockTest := by
  have hslot := XmetaCarriers.slot_xattr sampleXmeta_wellFormed sampleXmeta_readable
    (xmetaEncode_eq sampleXmeta_wellFormed) (by decide)
  refine ⟨_, hslot, rfl, ?_, ?_⟩
  · rw [hslot]
    refine ⟨_, _, rfl, rfl, by decide, fun hans => ?_⟩
    have hcomplete := hans.complete.mpr rfl
    exact absurd hcomplete (by decide)
  · rw [hslot]
    refine ⟨_, _, rfl, rfl, rfl, by decide, fun hans => ?_⟩
    rcases hans.present 0 (by decide) with hc | ⟨r, hr, hmatch, -⟩
    · cases hc
    · rw [← Option.some.inj hr] at hmatch
      exact absurd hmatch (by decide)

end BrixCache
