import BrixCache.Cache.Cinfo
import BrixCache.Lib.Sparse

/-!
# Slice mode

`fs/backend/cache/sd_cache_partial.c` and the serving loop of `fs/cache/cstore.c`:
an object cached as a sparse file that reads fill block by block, with a present
bitmap in the path's record and a mirror of it in every handle.

Every call that can fail for reasons outside the code takes what happened as an
argument: how far a block copy got, and what became of the record's save.
Offsets and block numbers are naturals; a file's size is an `off_t`, so none of
the sums made of them wraps.
-/

namespace BrixCache

open List

/-- A version of the object at the origin -/
structure OriginVersion : Type where
  content : List UInt8
  mtime : UInt64
  /-- permission bits -/
  mode : UInt32
  /-- its size is an `off_t` -/
  fits : content.length < 2 ^ 63

/-- What `stat` says of its size. -/
def OriginVersion.size (v : OriginVersion) : UInt64 := UInt64.ofNat v.content.length

@[simp] theorem OriginVersion.toNat_size (v : OriginVersion) :
    v.size.toNat = v.content.length :=
  UInt64.toNat_ofNat_of_lt' (Nat.lt_trans v.fits (by decide))

/-- The slice size of the policy and the clamp of the client's hint,
`brix_cache_urlcgi_conf_t`. -/
structure SlicePolicy : Type where
  sliceSize : UInt64
  bsMin : UInt64
  /-- `0`: the hint is ignored -/
  bsMax : UInt64

def cacheSliceGranule : UInt64 := 1024 * 1024

/-- `sd_cache_partial_t`, less the source and the credential. -/
structure PartialObj : Type where
  size : UInt64
  blockSize : UInt32
  mtime : UInt64
  mode : UInt32
  nblocks : UInt64
  /-- the handle's mirror of the present bitmap -/
  bitmap : Option (List UInt8)
  bitmapLen : ℕ

/-- The sparse file and the record of one path. -/
structure SliceStore : Type where
  file : Option (List UInt8)
  slot : Option Xmeta

/-! ## Opening -/

/-- `partial_block_size`; a missing hint is `0`. -/
def partialBlockSize (policy : SlicePolicy) (hint : UInt64) : UInt32 :=
  if hint = 0 ∨ policy.bsMax = 0 then policy.sliceSize.toUInt32
  else
    let bs := if hint < policy.bsMin then policy.bsMin else hint
    let bs := if policy.bsMax < bs then policy.bsMax else bs
    (bs - bs % cacheSliceGranule).toUInt32

/-- All blocks absent; no bitmap for an empty object. -/
def PartialObj.blank (p : PartialObj) : PartialObj :=
  { p with bitmap := if 0 < p.bitmapLen then some (replicate p.bitmapLen 0) else none }

/-- `partial_adopt_bitmap`: an object of the same size keeps the recorded
granule and, with it, the recorded bitmap. -/
def partialAdoptBitmap (slot : Option Xmeta) (p : PartialObj) : PartialObj :=
  match cinfoLoad slot with
  | .error _ => p.blank
  | .ok (hdr, bm) =>
    if hdr.size = p.size ∧ 0 < hdr.blockSize then
      let q : PartialObj :=
        if hdr.blockSize ≠ p.blockSize then
          { p with
            blockSize := hdr.blockSize
            nblocks := cinfoNblocks p.size hdr.blockSize
            bitmapLen := xmetaBitmapLen (cinfoNblocks p.size hdr.blockSize) }
        else p
      if (bm.map length).getD 0 = q.bitmapLen then { q with bitmap := bm } else q.blank
    else p.blank

/-- `brix_cstore_partial_open`: created when there is none, grown when it is
shorter than the source, never cut. -/
def cstorePartialOpen {β : Type} (hole : β) (file : Option (List β)) (size : ℕ) : List β :=
  let f := file.getD []
  if f.length < size then File.ftruncate hole f size else f

/-- The geometry of a new handle of the version `v`, before its bitmap. -/
def partialObjInit (policy : SlicePolicy) (hint : UInt64) (v : OriginVersion) : PartialObj :=
  let bs := partialBlockSize policy hint
  { size := v.size, blockSize := bs, mtime := v.mtime, mode := v.mode &&& 0o777,
    nblocks := cinfoNblocks v.size bs, bitmap := none,
    bitmapLen := xmetaBitmapLen (cinfoNblocks v.size bs) }

/-- `sd_cache_partial_open` of the version `v`. -/
def sdCachePartialOpen (policy : SlicePolicy) (hint : UInt64) (v : OriginVersion)
    (c : SliceStore) : PartialObj × SliceStore :=
  (partialAdoptBitmap c.slot (partialObjInit policy hint v),
    { c with file := some (cstorePartialOpen 0 c.file v.content.length) })

/-! ## Filling and serving -/

/-- What became of a record's save. -/
inductive RecordSave : Type where
  | saved : RecordSave
  /-- refused, the old record stays -/
  | kept : RecordSave
  /-- torn, no record can be read -/
  | unreadable : RecordSave

def RecordSave.slot (save : RecordSave) (old : Option Xmeta) (m : Xmeta) : Option Xmeta :=
  match save with
  | .saved => cinfoWrite m
  | .kept => old
  | .unreadable => none

/-- How the fill of a block ends -/
inductive BlockFill : Type where
  /-- copied; the record was saved at `now`, or not -/
  | copied (now : Int64) (save : RecordSave) : BlockFill
  /-- a call failed after this many bytes were written -/
  | stopped (put : ℕ) : BlockFill

/-- Is a block in the handle's bitmap? -/
def PartialObj.present (p : PartialObj) (blk : ℕ) : Bool :=
  match p.bitmap with
  | none => false
  | some bm => decide (blk < p.nblocks.toNat) && Bitmap.test bm blk

/-- `brix_cache_cinfo_record_block` for a handle: the record afterwards. -/
def PartialObj.record (p : PartialObj) (slot : Option Xmeta) (blk : ℕ) (now : Int64)
    (save : RecordSave) : Option Xmeta :=
  match cinfoRecordBlock now slot ⟨p.size, p.blockSize, p.mtime⟩ p.mode (UInt64.ofNat blk) with
  | .ok m => save.slot slot m
  | .error _ => slot

/-- `brix_cache_cinfo_mark_block` in the handle's bitmap. -/
def PartialObj.mark (p : PartialObj) (blk : ℕ) : PartialObj :=
  if blk < p.nblocks.toNat then
    { p with bitmap := p.bitmap.map fun bm => Bitmap.set bm blk }
  else p

/-- The length of a block of a handle: a granule, less at the end. -/
def PartialObj.blockLen (p : PartialObj) (blk : ℕ) : ℕ :=
  if blk * p.blockSize.toNat + p.blockSize.toNat ≤ p.size.toNat then p.blockSize.toNat
  else p.size.toNat - blk * p.blockSize.toNat

/-- `sd_cache_fill_block` from the source's bytes. The save's result is not
looked at. -/
def sdCacheFillBlock (src : List UInt8) (c : SliceStore) (p : PartialObj) (blk : ℕ)
    (fill : BlockFill) : Except Errno Unit × SliceStore × PartialObj :=
  let bstart := blk * p.blockSize.toNat
  if p.size.toNat ≤ bstart then (.ok (), c, p)
  else
    let bytes := File.pread src bstart (p.blockLen blk)
    match fill with
    | .stopped put =>
      (.error .eio,
        { c with file := some (File.pwrite 0 (c.file.getD []) bstart (bytes.take put)) }, p)
    | .copied now save =>
      (.ok (),
        { file := some (File.pwrite 0 (c.file.getD []) bstart bytes),
          slot := p.record c.slot blk now save },
        p.mark blk)

/-- The loop of `brix_cstore_serve_pread`: `n` blocks from `blk` on, each filled
unless it is present. -/
def cstoreFillRange (src : List UInt8) (env : ℕ → BlockFill) :
    ℕ → ℕ → SliceStore → PartialObj → Except Errno Unit × SliceStore × PartialObj
  | 0, _, c, p => (.ok (), c, p)
  | n + 1, blk, c, p =>
    if p.present blk then cstoreFillRange src env n (blk + 1) c p
    else
      match sdCacheFillBlock src c p blk (env blk) with
      | (.ok (), c', p') => cstoreFillRange src env n (blk + 1) c' p'
      | (.error e, c', p') => (.error e, c', p')

/-- `sd_cache_pread`, that is `brix_cstore_serve_pread` with the fill of this
object. -/
def sdCachePread (src : List UInt8) (env : ℕ → BlockFill) (c : SliceStore) (p : PartialObj)
    (len off : ℕ) : Except Errno (List UInt8) × SliceStore × PartialObj :=
  if p.blockSize = 0 then (.error .einval, c, p)
  else if p.size.toNat ≤ off then (.ok [], c, p)
  else
    let len := if p.size.toNat < off + len then p.size.toNat - off else len
    if len = 0 then (.ok [], c, p)
    else
      let first := off / p.blockSize.toNat
      let last := (off + len - 1) / p.blockSize.toNat
      match cstoreFillRange src env (last - first + 1) first c p with
      | (.error e, c', p') => (.error e, c', p')
      | (.ok (), c', p') => (.ok (File.pread (c'.file.getD []) off len), c', p')

/-! ## Records of blocks -/

/-- A record as the cache makes them: the geometry of a file in 32-bit
granules. -/
structure BlockRecord (m : Xmeta) : Prop where
  haveState : m.haveState = true
  nonneg : 0 ≤ m.fileSize
  granule : ∃ bs : UInt32, bs ≠ 0 ∧ m.bufferSize = bs.toUInt64.toInt64
  nblocks : m.nblocks = xmetaNblocks m.fileSize m.bufferSize
  bitmap : m.bitmap.length = xmetaBitmapLen m.nblocks

/-- A record as `brix_cache_cinfo_record_block` makes them: some block of it is
present. -/
structure SliceRecord (m : Xmeta) : Prop extends BlockRecord m where
  present : ∃ b, b < m.nblocks.toNat ∧ Bitmap.test m.bitmap b = true

theorem xmetaNblocks_eq_cinfoNblocks {size : UInt64} {bs : UInt32} (hsize : 0 ≤ size.toInt64)
    (hbs : bs ≠ 0) : xmetaNblocks size.toInt64 bs.toUInt64.toInt64 = cinfoNblocks size bs := by
  rw [xmetaNblocks, cinfoNblocks, UInt64.toUInt64_toInt64, UInt64.toUInt64_toInt64]
  by_cases hz : size = 0
  · rw [if_pos (Or.inl hz), hz]
    rfl
  · have hpos : ¬ size.toInt64 ≤ 0 := by
      intro hle
      refine hz ?_
      have heq : size.toInt64 = 0 := Int64.le_antisymm hle hsize
      rw [← UInt64.toUInt64_toInt64 size, heq]
      rfl
    rw [if_neg hpos, if_neg]
    rintro (h | h)
    · exact hz h
    · exact hbs h

variable {m : Xmeta} {now : Int64} {key : CinfoKey} {slot : Option Xmeta} {b : ℕ}

theorem BlockRecord.persisted (h : BlockRecord m) : BlockRecord m.persisted :=
  ⟨h.haveState, h.nonneg, h.granule, h.nblocks, h.bitmap⟩

theorem SliceRecord.persisted (h : SliceRecord m) : SliceRecord m.persisted :=
  ⟨h.toBlockRecord.persisted, h.present⟩

theorem BlockRecord.granule_pos (h : BlockRecord m) : 0 < m.granule := by
  obtain ⟨bs, hbs, hgran⟩ := h.granule
  rw [Xmeta.granule, hgran, toNatClampNeg_granule]
  exact Nat.pos_of_ne_zero fun hz => hbs (UInt32.toNat_inj.mp hz)

theorem BlockRecord.toNat_size (h : BlockRecord m) :
    m.fileSize.toUInt64.toNat = m.size := Int64.toNat_toUInt64_of_le h.nonneg

theorem BlockRecord.exists_block (h : BlockRecord m) {i : ℕ} (hi : i < m.size) :
    ∃ b, b < m.nblocks.toNat ∧ Sparse.InBlock m.granule m.size b i := by
  have hpos := h.granule_pos
  have hbuf : 0 < m.bufferSize := by
    rw [Int64.lt_iff_toInt_lt]
    have hint : 0 < m.bufferSize.toInt.toNat := hpos
    have hzero : (0 : Int64).toInt = 0 := rfl
    omega
  refine ⟨i / m.granule, ?_, Nat.div_mul_le_self i _, Nat.lt_div_mul_add hpos, hi⟩
  rw [h.nblocks, toNat_xmetaNblocks h.nonneg hbuf]
  have hsize : m.fileSize.toNatClampNeg = m.size := rfl
  have hgran : m.bufferSize.toNatClampNeg = m.granule := rfl
  rw [hsize, hgran, Nat.div_lt_iff_lt_mul hpos]
  have hup := Nat.lt_div_mul_add hpos (a := m.size + m.granule - 1)
  omega

theorem cinfoToXmeta_blockRecord {hdr : Cinfo} {bitmap : Option (List UInt8)}
    (h : cinfoToXmeta now hdr bitmap = .ok m) :
    BlockRecord m ∧ m.size = hdr.size.toNat := by
  obtain ⟨-, hnonneg, -, hnb, hstate, hsize, hbs, -, -, -, hbm, -⟩ := cinfoToXmeta_eq_ok h
  refine ⟨⟨hstate, hnonneg, ⟨_, ?_, hbs⟩, hnb, ?_⟩, ?_⟩
  · split
    · assumption
    · decide
  · rw [hbm]
    cases bitmap with
    | none => exact length_replicate
    | some bits =>
      rw [cinfoStoreBitmap]
      split
      · rename_i hlen
        exact length_take_of_le hlen.1
      · exact length_replicate
  · rw [Xmeta.size, ← Int64.toNat_toUInt64_of_le hnonneg, hsize, UInt64.toUInt64_toInt64]

/-- **What recording a block leaves**: a record of the key, whose blocks are the
new one and those of a record of the same key. -/
theorem cinfoRecordBlock_slice
    {mode : UInt32} {blk : UInt64} (hslot : ∀ x, slot = some x → BlockRecord x)
    (h : cinfoRecordBlock now slot key mode blk = .ok m) :
    SliceRecord m ∧ cinfoMatches m key = true ∧
      ∀ b, Bitmap.test m.bitmap b = true → b = blk.toNat ∨
        ∃ x, slot = some x ∧ cinfoMatches x key = true ∧ Bitmap.test x.bitmap b = true := by
  obtain ⟨hbs, hblk, xm, hload, rfl⟩ := cinfoRecordBlock_eq_ok h
  obtain ⟨hmatch, hfrom⟩ := cinfoRmwLoad_eq_ok hbs hload
  -- the record started from, and whose blocks it has
  have hstart : xm.haveState = true ∧ 0 ≤ xm.fileSize ∧
      xm.bufferSize = key.blockSize.toUInt64.toInt64 ∧
      xm.nblocks = xmetaNblocks xm.fileSize xm.bufferSize ∧
      xm.bitmap.length = xmetaBitmapLen xm.nblocks ∧
      ∀ b, Bitmap.test xm.bitmap b = true → slot = some xm := by
    have hgran : xm.bufferSize = key.blockSize.toUInt64.toInt64 := by
      rw [cinfoMatches, Bool.and_eq_true, Bool.and_eq_true, decide_eq_true_eq,
        decide_eq_true_eq] at hmatch
      rw [← hmatch.1.2, Int64.toInt64_toUInt64]
    rcases hfrom with hrec | ⟨-, hfresh⟩
    · have hx := hslot xm hrec
      exact ⟨hx.haveState, hx.nonneg, hgran, hx.nblocks, hx.bitmap, fun _ _ => hrec⟩
    · obtain ⟨-, hnonneg, -, hnb, hstate, -, -, -, -, -, hbm, -⟩ := cinfoToXmeta_eq_ok hfresh
      have hzero : xm.bitmap = replicate (xmetaBitmapLen xm.nblocks) 0 := hbm
      refine ⟨hstate, hnonneg, hgran, hnb, ?_, ?_⟩
      · rw [hzero, length_replicate]
      · intro b hb
        rw [hzero, Bitmap.test_replicate_zero] at hb
        cases hb
  obtain ⟨hstate, hnonneg, hgran, hnb, hbm, hblocks⟩ := hstart
  have hsize : xm.fileSize = key.size.toInt64 := by
    have hmatch' := hmatch
    rw [cinfoMatches, Bool.and_eq_true, Bool.and_eq_true, decide_eq_true_eq] at hmatch'
    rw [← hmatch'.1.1, Int64.toInt64_toUInt64]
  have hin : blk.toNat < xm.nblocks.toNat := by
    rw [hnb, hgran, hsize, xmetaNblocks_eq_cinfoNblocks (hsize ▸ hnonneg) hbs]
    exact UInt64.lt_iff_toNat_lt.mp hblk
  rw [Xmeta.blockSet_of_lt ({ xm with mode := if mode ≠ 0 then mode else xm.mode } : Xmeta) hin]
  have hbyte : blk.toNat / 8 < xm.bitmap.length := by
    rw [hbm, xmetaBitmapLen]
    exact Bitmap.div_lt_bytes hin
  refine ⟨⟨⟨hstate, hnonneg, ⟨_, hbs, hgran⟩, hnb, ?_⟩, blk.toNat, hin, ?_⟩, hmatch, ?_⟩
  · exact (Bitmap.length_set _ _).trans hbm
  · simp only [Bitmap.test_set _ hbyte, decide_true, Bool.or_true]
  · intro b hb
    rcases Bitmap.of_test_set hb with hold | heq
    · exact .inr ⟨xm, hblocks b hold, hmatch, hold⟩
    · exact .inl heq.symm

theorem granule_of_matches (h : cinfoMatches m key = true) :
    m.granule = key.blockSize.toNat := by
  rw [cinfoMatches, Bool.and_eq_true, Bool.and_eq_true, decide_eq_true_eq,
    decide_eq_true_eq] at h
  rw [Xmeta.granule, ← toNatClampNeg_granule, ← h.1.2, Int64.toInt64_toUInt64]

theorem BlockRecord.size_of_matches (h : BlockRecord m)
    (hm : cinfoMatches m key = true) : m.size = key.size.toNat := by
  rw [cinfoMatches, Bool.and_eq_true, Bool.and_eq_true, decide_eq_true_eq] at hm
  rw [← h.toNat_size, hm.1.1]

/-! ## What a store and a handle hold -/

open Sparse

def SliceStore.bytes (c : SliceStore) : List UInt8 := c.file.getD []

/-- A store whose record speaks of the version has the blocks that it names. -/
structure SliceStore.Holds (c : SliceStore) (v : OriginVersion) : Prop where
  record : ∀ m, c.slot = some m → SliceRecord m
  blocks : ∀ m, c.slot = some m → m.fileSize.toUInt64 = v.size → m.originMtime = v.mtime →
    ∀ b, Bitmap.test m.bitmap b = true → BlockCopied v.content c.bytes m.granule b

/-- A handle of a version: what its bitmap says is present, the file has. -/
structure PartialObj.Holds (p : PartialObj) (c : SliceStore) (v : OriginVersion) : Prop where
  size : p.size = v.size
  mtime : p.mtime = v.mtime
  blocks : ∀ b, p.present b = true → BlockCopied v.content c.bytes p.blockSize.toNat b

/-- What calls on handles of a version do to the store: they copy more of it, and
record nothing for another version. -/
structure SliceStore.Advances (v : OriginVersion) (c c' : SliceStore) : Prop where
  copied : ∀ i, Copied v.content c.bytes i → Copied v.content c'.bytes i
  mtime : ∀ m, c'.slot = some m → c.slot = some m ∨ m.originMtime = v.mtime

variable {v : OriginVersion} {c c' c'' : SliceStore} {p : PartialObj}

theorem SliceStore.Advances.refl (v : OriginVersion) (c : SliceStore) : c.Advances v c :=
  ⟨fun _ h => h, fun _ h => .inl h⟩

theorem SliceStore.Advances.trans (h : SliceStore.Advances v c c')
    (h' : SliceStore.Advances v c' c'') : SliceStore.Advances v c c'' := by
  refine ⟨fun i hi => h'.copied i (h.copied i hi), ?_⟩
  intro m hm
  rcases h'.mtime m hm with hold | hnew
  · exact h.mtime m hold
  · exact .inr hnew

theorem SliceStore.Advances.block (h : SliceStore.Advances v c c') {g : ℕ}
    (hb : BlockCopied v.content c.bytes g b) : BlockCopied v.content c'.bytes g b :=
  fun i h₁ h₂ => h.copied i (hb i h₁ h₂)

theorem PartialObj.Holds.mono (h : p.Holds c v) (hadv : SliceStore.Advances v c c') :
    p.Holds c' v :=
  ⟨h.size, h.mtime, fun b hb => hadv.block (h.blocks b hb)⟩

/-! ### Filling a block -/

theorem PartialObj.of_present_mark {blk : ℕ} (h : (p.mark blk).present b = true) :
    p.present b = true ∨ blk = b := by
  rw [PartialObj.mark] at h
  by_cases hin : blk < p.nblocks.toNat
  · rw [if_pos hin, PartialObj.present] at h
    rw [PartialObj.present]
    rcases hbm : p.bitmap with _ | bm
    · simp only [hbm, Option.map_none] at h
      cases h
    · simp only [hbm, Option.map_some, Bool.and_eq_true] at h
      rcases Bitmap.of_test_set h.2 with hold | heq
      · exact .inl (Bool.and_eq_true _ _ ▸ ⟨h.1, hold⟩)
      · exact .inr heq
  · rw [if_neg hin] at h
    exact .inl h

@[simp] theorem PartialObj.mark_blockSize (p : PartialObj) (blk : ℕ) :
    (p.mark blk).blockSize = p.blockSize := by
  rw [PartialObj.mark]
  split <;> rfl

theorem PartialObj.mark_size (p : PartialObj) (blk : ℕ) : (p.mark blk).size = p.size := by
  rw [PartialObj.mark]
  split <;> rfl

theorem PartialObj.mark_mtime (p : PartialObj) (blk : ℕ) : (p.mark blk).mtime = p.mtime := by
  rw [PartialObj.mark]
  split <;> rfl

/-- The record a handle leaves: the one there was, or one of its own key with the
block added to those of a record of that key. -/
theorem PartialObj.record_eq_some {blk : ℕ}
    {save : RecordSave} (hslot : ∀ x, slot = some x → BlockRecord x)
    (hblk : blk < 2 ^ 64) (h : p.record slot blk now save = some m) :
    slot = some m ∨ (SliceRecord m ∧ cinfoMatches m ⟨p.size, p.blockSize, p.mtime⟩ = true ∧
      ∀ b, Bitmap.test m.bitmap b = true → b = blk ∨
        ∃ x, slot = some x ∧ cinfoMatches x ⟨p.size, p.blockSize, p.mtime⟩ = true ∧
          Bitmap.test x.bitmap b = true) := by
  have hnat : (UInt64.ofNat blk).toNat = blk := UInt64.toNat_ofNat_of_lt' hblk
  rw [PartialObj.record] at h
  rcases hrec : cinfoRecordBlock now slot ⟨p.size, p.blockSize, p.mtime⟩ p.mode
    (UInt64.ofNat blk) with e | x
  · rw [hrec] at h
    exact .inl h
  · rw [hrec] at h
    cases save with
    | saved =>
      obtain ⟨hslice, hmatch, hblocks⟩ := cinfoRecordBlock_slice hslot hrec
      cases h
      rw [hnat] at hblocks
      refine .inr ⟨hslice.persisted, ?_, hblocks⟩
      rw [Xmeta.persisted_matches hslice.haveState]
      exact hmatch
    | kept => exact .inl h
    | unreadable => cases h

/-- The result of a call on a handle of `v`, whatever the call returned. -/
structure SliceServed {α : Type} (v : OriginVersion) (c : SliceStore) (p : PartialObj)
    (r : Except Errno α × SliceStore × PartialObj) : Prop where
  advances : SliceStore.Advances v c r.2.1
  store : r.2.1.Holds v
  handle : r.2.2.Holds r.2.1 v
  blockSize : r.2.2.blockSize = p.blockSize

theorem SliceServed.unchanged {α : Type} (hc : c.Holds v) (hp : p.Holds c v)
    (r : Except Errno α) : SliceServed v c p (r, c, p) :=
  ⟨.refl v c, hc, hp, rfl⟩

/-- The fill of a block -/
theorem sdCacheFillBlock_spec (hc : c.Holds v) (hp : p.Holds c v) (hbs : p.blockSize ≠ 0)
    (blk : ℕ) (fill : BlockFill) :
    SliceServed v c p (sdCacheFillBlock v.content c p blk fill) ∧
      ((sdCacheFillBlock v.content c p blk fill).1 = .ok () →
        BlockCopied v.content (sdCacheFillBlock v.content c p blk fill).2.1.bytes
          p.blockSize.toNat blk) := by
  have hlen : p.size.toNat = v.content.length := by
    rw [hp.size, v.toNat_size]
  have hpos : 0 < p.blockSize.toNat := by
    refine Nat.pos_of_ne_zero fun hz => hbs ?_
    exact UInt32.toNat_inj.mp hz
  rw [sdCacheFillBlock]
  by_cases hend : p.size.toNat ≤ blk * p.blockSize.toNat
  · simp only [if_pos hend]
    exact ⟨.unchanged hc hp _, fun _ => blockCopied_of_le (hlen ▸ hend)⟩
  · simp only [if_neg hend]
    -- a block cut short at the end of the file is all the source has of it
    have hcut : File.pread v.content (blk * p.blockSize.toNat) (p.blockLen blk) =
        File.pread v.content (blk * p.blockSize.toNat) p.blockSize.toNat := by
      rw [PartialObj.blockLen]
      by_cases hfull : blk * p.blockSize.toNat + p.blockSize.toNat ≤ p.size.toNat
      · rw [if_pos hfull]
      · rw [if_neg hfull, File.pread, File.pread, take_of_length_le, take_of_length_le]
        · rw [length_drop]
          omega
        · rw [length_drop]
          omega
    have hpiece := piece_pread v.content (blk * p.blockSize.toNat) p.blockSize.toNat
    simp only [hcut]
    cases fill with
    | stopped put =>
      have hadv : SliceStore.Advances v c
          { c with file := some (File.pwrite 0 (c.file.getD []) (blk * p.blockSize.toNat)
            ((File.pread v.content (blk * p.blockSize.toNat) p.blockSize.toNat).take put)) } :=
        ⟨fun i hi => hi.pwrite (hpiece.take put), fun m hm => .inl hm⟩
      refine ⟨⟨hadv, ⟨hc.record, ?_⟩, hp.mono hadv, rfl⟩, fun h => by cases h⟩
      exact fun m hm hs ht b hb => hadv.block (hc.blocks m hm hs ht b hb)
    | copied now save =>
      have hblk : blk < 2 ^ 64 := by
        have hle : blk * 1 ≤ blk * p.blockSize.toNat := Nat.mul_le_mul_left blk hpos
        have hfits := v.fits
        omega
      have hrec : ∀ m, p.record c.slot blk now save = some m → _ :=
        fun m hm => PartialObj.record_eq_some (fun x hx => (hc.record x hx).toBlockRecord) hblk hm
      have hadv : SliceStore.Advances v c
          { file := some (File.pwrite 0 (c.file.getD []) (blk * p.blockSize.toNat)
              (File.pread v.content (blk * p.blockSize.toNat) p.blockSize.toNat)),
            slot := p.record c.slot blk now save } := by
        refine ⟨fun i hi => hi.pwrite hpiece, ?_⟩
        intro m hm
        rcases hrec m hm with hold | ⟨-, hmatch, -⟩
        · exact .inl hold
        · rw [cinfoMatches, Bool.and_eq_true, decide_eq_true_eq] at hmatch
          exact .inr (hmatch.2.trans hp.mtime)
      have hnew : BlockCopied v.content
          (File.pwrite 0 (c.file.getD []) (blk * p.blockSize.toNat)
            (File.pread v.content (blk * p.blockSize.toNat) p.blockSize.toNat))
          p.blockSize.toNat blk := blockCopied_pwrite 0 (c.file.getD [])
      refine ⟨⟨hadv, ⟨?_, ?_⟩, ⟨?_, ?_, ?_⟩, p.mark_blockSize blk⟩, fun _ => hnew⟩
      · intro m hm
        rcases hrec m hm with hold | ⟨hslice, -, -⟩
        · exact hc.record m hold
        · exact hslice
      · intro m hm hs ht b hb
        rcases hrec m hm with hold | ⟨-, hmatch, hblocks⟩
        · exact hadv.block (hc.blocks m hold hs ht b hb)
        · rw [granule_of_matches hmatch]
          rcases hblocks b hb with rfl | ⟨x, hx, hxm, hxb⟩
          · exact hnew
          · have hkey := hxm
            rw [cinfoMatches, Bool.and_eq_true, Bool.and_eq_true, decide_eq_true_eq,
              decide_eq_true_eq, decide_eq_true_eq] at hkey
            have hold := hc.blocks x hx (hkey.1.1.trans hp.size) (hkey.2.trans hp.mtime) b hxb
            rw [granule_of_matches hxm] at hold
            exact hadv.block hold
      · exact (p.mark_size blk).trans hp.size
      · exact (p.mark_mtime blk).trans hp.mtime
      · intro b hb
        rw [p.mark_blockSize]
        rcases PartialObj.of_present_mark hb with hold | rfl
        · exact hadv.block (hp.blocks b hold)
        · exact hnew

/-! ### Serving a range -/

/-- The fill of a range of blocks -/
theorem cstoreFillRange_spec (env : ℕ → BlockFill) (n blk : ℕ) (hc : c.Holds v)
    (hp : p.Holds c v) (hbs : p.blockSize ≠ 0) :
    SliceServed v c p (cstoreFillRange v.content env n blk c p) ∧
      ((cstoreFillRange v.content env n blk c p).1 = .ok () → ∀ b, blk ≤ b → b < blk + n →
        BlockCopied v.content (cstoreFillRange v.content env n blk c p).2.1.bytes
          p.blockSize.toNat b) := by
  induction n generalizing blk c p with
  | zero =>
    refine ⟨.unchanged hc hp _, ?_⟩
    intro _ b h₁ h₂
    omega
  | succ n ih =>
    rw [cstoreFillRange]
    rcases hpres : p.present blk with _ | _
    · rw [if_neg Bool.false_ne_true]
      obtain ⟨hserved, hcopied⟩ := sdCacheFillBlock_spec hc hp hbs blk (env blk)
      generalize sdCacheFillBlock v.content c p blk (env blk) = filled at hserved hcopied ⊢
      obtain ⟨r, c', p'⟩ := filled
      cases r with
      | error e => exact ⟨⟨hserved.advances, hserved.store, hserved.handle, hserved.blockSize⟩,
          fun h => by cases h⟩
      | ok u =>
        have hbs' : p'.blockSize = p.blockSize := hserved.blockSize
        obtain ⟨hrest, hcover⟩ := ih (blk + 1) hserved.store hserved.handle (hbs' ▸ hbs)
        refine ⟨⟨hserved.advances.trans hrest.advances, hrest.store, hrest.handle,
          hrest.blockSize.trans hbs'⟩, ?_⟩
        intro hok b h₁ h₂
        rcases Nat.eq_or_lt_of_le h₁ with rfl | hlt
        · exact hrest.advances.block (hcopied rfl)
        · have := hcover hok b hlt (by omega)
          rw [hbs'] at this
          exact this
    · rw [if_pos rfl]
      obtain ⟨hrest, hcover⟩ := ih (blk + 1) hc hp hbs
      refine ⟨hrest, ?_⟩
      intro hok b h₁ h₂
      rcases Nat.eq_or_lt_of_le h₁ with rfl | hlt
      · exact hrest.advances.block (hp.blocks blk hpres)
      · exact hcover hok b hlt (by omega)

/-- **A read** gives the bytes of the version. -/
theorem sdCachePread_spec (env : ℕ → BlockFill) (len off : ℕ) (hc : c.Holds v) (hp : p.Holds c v) :
    SliceServed v c p (sdCachePread v.content env c p len off) ∧
      ∀ bytes, (sdCachePread v.content env c p len off).1 = .ok bytes →
        bytes = File.pread v.content off len := by
  have hlen : p.size.toNat = v.content.length := by
    rw [hp.size, v.toNat_size]
  rw [sdCachePread]
  by_cases hz : p.blockSize = 0
  · rw [if_pos hz]
    exact ⟨.unchanged hc hp _, fun bytes h => by cases h⟩
  rw [if_neg hz]
  by_cases hend : p.size.toNat ≤ off
  · rw [if_pos hend]
    refine ⟨.unchanged hc hp _, ?_⟩
    rintro bytes ⟨⟩
    rw [File.pread, drop_of_length_le (hlen ▸ hend), take_nil]
  rw [if_neg hend]
  -- the length is cut at the end of the file
  have hclamp : (if p.size.toNat < off + len then p.size.toNat - off else len) =
      min len (v.content.length - off) := by
    by_cases hover : p.size.toNat < off + len
    · rw [if_pos hover, hlen, Nat.min_eq_right (by omega)]
    · rw [if_neg hover, Nat.min_eq_left (by omega)]
  simp only [hclamp]
  rw [← File.pread_min v.content off len]
  generalize hl : min len (v.content.length - off) = l
  by_cases hl0 : l = 0
  · rw [if_pos hl0, hl0]
    refine ⟨.unchanged hc hp _, ?_⟩
    rintro bytes ⟨⟩
    rw [File.pread, take_zero]
  rw [if_neg hl0]
  obtain ⟨hserved, hcover⟩ := cstoreFillRange_spec env
    ((off + l - 1) / p.blockSize.toNat - off / p.blockSize.toNat + 1)
    (off / p.blockSize.toNat) hc hp hz
  generalize cstoreFillRange v.content env
    ((off + l - 1) / p.blockSize.toNat - off / p.blockSize.toNat + 1)
    (off / p.blockSize.toNat) c p = filled at hserved hcover ⊢
  obtain ⟨r, c', p'⟩ := filled
  cases r with
  | error e => exact ⟨⟨hserved.advances, hserved.store, hserved.handle, hserved.blockSize⟩,
      fun bytes h => by cases h⟩
  | ok u =>
    refine ⟨⟨hserved.advances, hserved.store, hserved.handle, hserved.blockSize⟩, ?_⟩
    rintro bytes ⟨⟩
    have hpos : 0 < p.blockSize.toNat := by
      refine Nat.pos_of_ne_zero fun hbz => hz ?_
      exact UInt32.toNat_inj.mp hbz
    refine pread_eq (by omega) ?_
    intro i h₁ h₂
    refine copied_of_blocks hpos h₁ h₂ ?_
    intro b hb₁ hb₂
    exact hcover rfl b hb₁ (by omega)

/-! ### Opening -/

theorem PartialObj.blank_present (p : PartialObj) (b : ℕ) : p.blank.present b = false := by
  by_cases hlen : 0 < p.bitmapLen
  · simp only [PartialObj.present, PartialObj.blank, if_pos hlen, Bitmap.test_replicate_zero,
      Bool.and_false]
  · simp only [PartialObj.present, PartialObj.blank, if_neg hlen]

theorem partialAdoptBitmap_size (slot : Option Xmeta) (p : PartialObj) :
    (partialAdoptBitmap slot p).size = p.size ∧ (partialAdoptBitmap slot p).mtime = p.mtime := by
  rw [partialAdoptBitmap]
  split
  · exact ⟨rfl, rfl⟩
  · split
    · split <;> dsimp only <;> split <;> exact ⟨rfl, rfl⟩
    · exact ⟨rfl, rfl⟩

theorem of_present_partialAdoptBitmap (h : (partialAdoptBitmap slot p).present b = true) :
    ∃ m, slot = some m ∧ m.fileSize.toUInt64 = p.size ∧
      (partialAdoptBitmap slot p).blockSize = m.bufferSize.toUInt64.toUInt32 ∧
      Bitmap.test m.bitmap b = true := by
  cases slot with
  | none =>
    have hblank := p.blank_present b
    rw [show partialAdoptBitmap none p = p.blank from rfl, hblank] at h
    cases h
  | some m =>
    refine ⟨m, rfl, ?_⟩
    simp only [partialAdoptBitmap, cinfoLoad] at h ⊢
    by_cases hadopt : (cinfoFromXmeta m).size = p.size ∧ 0 < (cinfoFromXmeta m).blockSize
    · rw [if_pos hadopt] at h ⊢
      refine ⟨hadopt.1, ?_⟩
      -- the granule taken over, or the same all along
      generalize hq : (if (cinfoFromXmeta m).blockSize ≠ p.blockSize then
        ({ p with
          blockSize := (cinfoFromXmeta m).blockSize
          nblocks := cinfoNblocks p.size (cinfoFromXmeta m).blockSize
          bitmapLen := xmetaBitmapLen (cinfoNblocks p.size (cinfoFromXmeta m).blockSize) } :
            PartialObj) else p) = q at h ⊢
      have hbs : q.blockSize = (cinfoFromXmeta m).blockSize := by
        rw [← hq]
        by_cases hne : (cinfoFromXmeta m).blockSize ≠ p.blockSize
        · rw [if_pos hne]
        · rw [if_neg hne]
          exact (not_not.mp hne).symm
      generalize hbits : (if 0 < xmetaBitmapLen m.nblocks then
        some (m.bitmap.take (xmetaBitmapLen m.nblocks)) else none) = bits at h ⊢
      by_cases hlen : (bits.map length).getD 0 = q.bitmapLen
      · rw [if_pos hlen] at h ⊢
        refine ⟨hbs, ?_⟩
        rw [← hbits] at h
        by_cases hb : 0 < xmetaBitmapLen m.nblocks
        · simp only [PartialObj.present, if_pos hb, Bool.and_eq_true] at h
          exact Bitmap.of_test_take h.2
        · simp only [PartialObj.present, if_neg hb] at h
          cases h
      · rw [if_neg hlen, PartialObj.blank_present] at h
        cases h
    · rw [if_neg hadopt, PartialObj.blank_present] at h
      cases h

theorem cstorePartialOpen_copied {src : List UInt8} {file : Option (List UInt8)} (size : ℕ)
    {i : ℕ} (h : Copied src (file.getD []) i) : Copied src (cstorePartialOpen 0 file size) i := by
  rw [cstorePartialOpen]
  by_cases hlt : (file.getD []).length < size
  · rw [if_pos hlt]
    exact h.ftruncate (Nat.le_of_lt hlt)
  · rw [if_neg hlt]
    exact h

theorem sdCachePartialOpen_spec (policy : SlicePolicy) (hint : UInt64) (hc : c.Holds v)
    (hmtime : ∀ m, c.slot = some m → m.fileSize.toUInt64 = v.size → m.originMtime = v.mtime) :
    SliceStore.Advances v c (sdCachePartialOpen policy hint v c).2 ∧
      (sdCachePartialOpen policy hint v c).2.Holds v ∧
      (sdCachePartialOpen policy hint v c).1.Holds (sdCachePartialOpen policy hint v c).2 v := by
  have hadv : SliceStore.Advances v c (sdCachePartialOpen policy hint v c).2 :=
    ⟨fun i hi => cstorePartialOpen_copied v.content.length hi, fun m hm => .inl hm⟩
  refine ⟨hadv, ⟨hc.record, ?_⟩, ?_, ?_, ?_⟩
  · exact fun m hm hs ht b hb => hadv.block (hc.blocks m hm hs ht b hb)
  · exact (partialAdoptBitmap_size _ _).1
  · exact (partialAdoptBitmap_size _ _).2
  · intro b hb
    obtain ⟨m, hm, hs, hbs, hbit⟩ := of_present_partialAdoptBitmap hb
    have hblock := hc.blocks m hm hs (hmtime m hm hs) b hbit
    obtain ⟨bs, -, hgran⟩ := (hc.record m hm).granule
    have heq : (sdCachePartialOpen policy hint v c).1.blockSize.toNat = m.granule := by
      refine (congrArg UInt32.toNat hbs).trans ?_
      rw [Xmeta.granule, hgran, toUInt32_granule, toNatClampNeg_granule]
    rw [heq]
    exact hadv.block hblock

/-- Does a handle trust any block? -/
def PartialObj.trusts (p : PartialObj) : Bool := (range p.nblocks.toNat).any p.present

/-- A record of the same size has its bitmap adopted. -/
theorem partialAdoptBitmap_trusts (hm : SliceRecord m)
    (hsize : m.fileSize.toUInt64 = p.size) (hnb : p.nblocks = cinfoNblocks p.size p.blockSize)
    (hlen : p.bitmapLen = xmetaBitmapLen p.nblocks) :
    (partialAdoptBitmap (some m) p).trusts = true := by
  obtain ⟨bs, hbs, hgran⟩ := hm.granule
  have hfile : m.fileSize = p.size.toInt64 := by
    rw [← hsize, Int64.toInt64_toUInt64]
  have hblocks : m.nblocks = cinfoNblocks p.size bs := by
    rw [hm.nblocks, hfile, hgran]
    exact xmetaNblocks_eq_cinfoNblocks (hfile ▸ hm.nonneg) hbs
  have hhdr : (cinfoFromXmeta m).blockSize = bs := by
    calc (cinfoFromXmeta m).blockSize = m.bufferSize.toUInt64.toUInt32 := rfl
      _ = bs := by rw [hgran, toUInt32_granule]
  have hadopt : (cinfoFromXmeta m).size = p.size ∧ 0 < bs :=
    ⟨hsize, UInt32.pos_iff_ne_zero.mpr hbs⟩
  obtain ⟨b, hb, hbit⟩ := hm.present
  have hpos : 0 < xmetaBitmapLen m.nblocks :=
    Nat.lt_of_le_of_lt (Nat.zero_le (b / 8)) (Bitmap.div_lt_bytes hb)
  simp only [partialAdoptBitmap, cinfoLoad, if_pos hpos, hhdr]
  rw [if_pos hadopt]
  generalize hq : (if bs ≠ p.blockSize then
    ({ p with
      blockSize := bs
      nblocks := cinfoNblocks p.size bs
      bitmapLen := xmetaBitmapLen (cinfoNblocks p.size bs) } : PartialObj) else p) = q
  have hgeom : q.nblocks = m.nblocks ∧ q.bitmapLen = xmetaBitmapLen m.nblocks := by
    rw [← hq]
    by_cases hne : bs ≠ p.blockSize
    · rw [if_pos hne, hblocks]
      exact ⟨rfl, rfl⟩
    · rw [if_neg hne, hlen, hnb, hblocks, not_not.mp hne]
      exact ⟨rfl, rfl⟩
  have htake : m.bitmap.take (xmetaBitmapLen m.nblocks) = m.bitmap :=
    take_of_length_le (Nat.le_of_eq hm.bitmap)
  rw [htake, if_pos]
  · rw [PartialObj.trusts, any_eq_true]
    refine ⟨b, mem_range.mpr (hgeom.1.symm ▸ hb), ?_⟩
    simp only [PartialObj.present, hgeom.1, decide_eq_true hb, Bool.true_and]
    exact hbit
  · rw [hgeom.2]
    exact hm.bitmap

end BrixCache
