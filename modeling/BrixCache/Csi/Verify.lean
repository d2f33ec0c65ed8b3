import BrixCache.Lib.Extent
import BrixCache.Meta.RoundTrip
import BrixCache.Core.Ascii

/-!
# Block checksums of a file

`fs/backend/csi_verify.c`: a read is checked against the block checksums of the
file's record, a write folds the checksums of the blocks it covers into a table
of its handle, and a flush merges that table into the record.

A block is fully covered by a range when the whole granule is; offsets are
naturals, as no sum of a file's offset and a granule wraps. What the file system
and the allocator answer is an input.
-/

namespace BrixCache

open List

/-- `BRIX_CSI_*` -/
inductive CsiRc : Type where
  | ok : CsiRc
  | mismatch : CsiRc
  | notags : CsiRc
  | err : CsiRc
  deriving DecidableEq

/-- `BRIX_CSI_FLUSH_READ`: the most blocks a flush reads back. -/
def csiFlushRead : ℕ := 32

/-- `BRIX_CSI_LOCAL_MAX`: the most blocks the handle's table has. -/
def csiLocalMax : ℕ := 2 ^ 20

/-- `brix_csi_t`, less its path. -/
structure Csi : Type where
  /-- block size for new records -/
  granule : UInt32
  trustFs : Bool
  dirty : Option Extent
  /-- the table cap was hit -/
  overflow : Bool
  /-- folded checksums, `0` for none -/
  folded : List UInt32
  /-- a read handle's snapshot of the record -/
  record : Option Xmeta

/-- The bytes of block `b`, fewer at the end of the file. -/
def csiBlock (file : Bytes) (g b : ℕ) : Bytes := File.pread file (b * g) g

/-! ## Reading -/

/-- The first block that starts at `off` or later. -/
def csiFirstBlock (g off : ℕ) : ℕ := (off + g - 1) / g

/-- The loop of `csi_verify_against`: `n` blocks from `b` on. -/
def csiVerifyBlocks (c : Csi) (m : Xmeta) (crcs : List UInt32) (buf : Bytes) (off : ℕ) :
    ℕ → ℕ → CsiRc
  | 0, _ => .ok
  | n + 1, b =>
    let bstart := b * m.granule
    let bend := min (bstart + m.granule) m.size
    if off + buf.length < bend then .ok
    else if c.dirty.any fun e => bstart < e.hi ∧ e.lo < bend then
      -- written through this handle: the record is not up to date
      csiVerifyBlocks c m crcs buf off n (b + 1)
    else if crcs.getD b 0 = xmetaCrcUnset then csiVerifyBlocks c m crcs buf off n (b + 1)
    else if crc32cValue (File.pread buf (bstart - off) (bend - bstart)) ≠ crcs.getD b 0 then
      .mismatch
    else csiVerifyBlocks c m crcs buf off n (b + 1)

/-- Compare a read with the block checksums of the record. -/
def csiVerifyAgainst (c : Csi) (m : Xmeta) (buf : Bytes) (off : ℕ) : CsiRc :=
  match m.blockcrc with
  | none => .notags
  | some crcs =>
    if m.haveBlockcrc = false ∨ m.bufferSize ≤ 0 then .notags
    else
      let b := csiFirstBlock m.granule off
      csiVerifyBlocks c m crcs buf off (m.nblocks.toNat - b) b

/-- `brix_csi_verify_read`, with what a load of the record returns. -/
def csiVerifyRead (c : Csi) (load : Except XmetaFault Xmeta) (buf : Bytes) (off : ℕ) :
    CsiRc :=
  if buf.length = 0 ∨ c.trustFs = true then .ok
  else
    match c.record with
    | some m => csiVerifyAgainst c m buf off
    | none =>
      match load with
      | .ok m => csiVerifyAgainst c m buf off
      | .error .foreign => .notags
      | .error (.err _) => .err

/-! ## Writing -/

/-- The doubling of `csi_local_reserve`; `fuel` bounds the number of turns. -/
def csiWant : ℕ → ℕ → ℕ → ℕ
  | 0, want, _ => want
  | fuel + 1, want, b => if want ≤ b then csiWant fuel (want * 2) b else want

/-- `csi_local_reserve`: is there a slot for block `b`? `grows` is whether the
allocator has the room. -/
def csiLocalReserve (c : Csi) (b : ℕ) (grows : Bool) : Bool × Csi :=
  if csiLocalMax ≤ b then (false, { c with overflow := true })
  else if b < c.folded.length then (true, c)
  else if grows then
    let want := csiWant (b + 1) (if c.folded.length = 0 then 64 else c.folded.length) b
    let want := min want csiLocalMax
    (true, { c with folded := c.folded ++ replicate (want - c.folded.length) 0 })
  else (false, { c with overflow := true })

/-- The fold of `brix_csi_write_update`: `n` blocks from `b` on, until one has no
slot. -/
def csiFold (grows : ℕ → Bool) (buf : Bytes) (off g : ℕ) : ℕ → ℕ → Csi → Csi
  | 0, _, c => c
  | n + 1, b, c =>
    match csiLocalReserve c b (grows b) with
    | (false, c') => c'
    | (true, c') =>
      csiFold grows buf off g n (b + 1)
        { c' with folded := c'.folded.set b (crc32cValue (File.pread buf (b * g - off) g)) }

/-- `brix_csi_write_update`; the blocks folded are those from the first that
starts in the range to the last that ends in it. -/
def csiWriteUpdate (c : Csi) (buf : Bytes) (off : ℕ) (grows : ℕ → Bool) : Csi :=
  if h : 0 < buf.length then
    let e : Extent := ⟨off, off + buf.length, Nat.lt_add_of_pos_right h⟩
    let g := c.granule.toNat
    let b := csiFirstBlock g off
    csiFold grows buf off g ((off + buf.length) / g - b) b
      { c with dirty := some (e.joinOption c.dirty) }
  else c

/-! ## Flushing -/

/-- All blocks present: the file is the data. -/
def Xmeta.presentAll (m : Xmeta) : Xmeta :=
  { m with bitmap := replicate (xmetaBitmapLen m.nblocks) 0xFF }

/-- `csi_record_regeom` at time `now`: a record of the new geometry, with the
scalar state of the old. -/
def csiRecordRegeom (now : Int64) (m : Xmeta) (newSize granule : Int64) : Except Errno Xmeta :=
  match xmetaInit now newSize granule with
  | .error e => .error e
  | .ok nu => .ok
    { nu.presentAll with
      creationTime := if m.creationTime ≠ 0 then m.creationTime else nu.creationTime
      accessCnt := m.accessCnt
      statusRaw := m.statusRaw
      astat := m.astat
      astatCount := m.astatCount
      haveState := true
      toXmetaState := m.toXmetaState
      toXmetaOrigin := m.toXmetaOrigin }

/-- The table a flush needs: the record's, or a fresh one. -/
def Xmeta.tracked (m : Xmeta) : Xmeta :=
  { m with
    haveBlockcrc := true
    blockcrc := match m.blockcrc with
      | some crcs => some crcs
      | none => some (replicate m.nblocks.toNat xmetaCrcUnset) }

/-- `csi_flush_load_record` for a file of `size` bytes and this `mtime`. -/
def csiFlushLoadRecord (now : Int64) (mtime : UInt64) (granule : UInt32) (size : Int64)
    (load : Except XmetaFault Xmeta) : Except Errno Xmeta :=
  match load with
  | .error (.err e) => .error e
  | .error .foreign =>
    match xmetaInit now size granule.toUInt64.toInt64 with
    | .error e => .error e
    | .ok m => .ok { m.presentAll with originMtime := mtime }.tracked
  | .ok m =>
    if m.fileSize ≠ size ∨ m.bufferSize ≤ 0 then
      match csiRecordRegeom now m size
        (if 0 < m.bufferSize then m.bufferSize else granule.toUInt64.toInt64) with
      | .error e => .error e
      | .ok nu => .ok { nu with originMtime := mtime }.tracked
    else .ok m.tracked

/-- `csi_flush_recompute_block`: the checksum of block `b` read back, none on a
short read or when `reads` says a call failed. -/
def csiFlushRecomputeBlock (file : Bytes) (m : Xmeta) (b : ℕ) (reads : Bool) :
    Option UInt32 :=
  let bstart := b * m.granule
  let bend := min (bstart + m.granule) m.size
  let bytes := File.pread file bstart (bend - bstart)
  if reads = true ∧ bytes.length = bend - bstart then some (crc32cValue bytes) else none

/-- The loop of `csi_flush_rebuild_crcs`: `n` blocks from `b` on, with `budget`
blocks left to read back. -/
def csiRebuildBlocks (c : Csi) (file : Bytes) (m : Xmeta) (reads : ℕ → Bool)
    (foldOk : Bool) : ℕ → ℕ → ℕ → List UInt32 → List UInt32
  | 0, _, _, crcs => crcs
  | n + 1, b, budget, crcs =>
    if foldOk = true ∧ b < c.folded.length ∧ c.folded.getD b 0 ≠ xmetaCrcUnset then
      csiRebuildBlocks c file m reads foldOk n (b + 1) budget (crcs.set b (c.folded.getD b 0))
    else if 0 < budget then
      match csiFlushRecomputeBlock file m b (reads b) with
      | some crc => csiRebuildBlocks c file m reads foldOk n (b + 1) (budget - 1) (crcs.set b crc)
      | none =>
        csiRebuildBlocks c file m reads foldOk n (b + 1) (budget - 1) (crcs.set b xmetaCrcUnset)
    else csiRebuildBlocks c file m reads foldOk n (b + 1) budget (crcs.set b xmetaCrcUnset)

/-- Is the handle's fold used for a record of this granule? -/
def Csi.foldOk (c : Csi) (m : Xmeta) : Bool :=
  decide (m.granule = c.granule.toNat) && !c.overflow

/-- `csi_flush_rebuild_crcs` over the written extent. -/
def csiFlushRebuildCrcs (c : Csi) (e : Extent) (file : Bytes) (m : Xmeta)
    (reads : ℕ → Bool) (crcs : List UInt32) : List UInt32 :=
  let g := m.granule
  let lo := e.lo / g
  let hi := min ((e.hi + g - 1) / g) m.nblocks.toNat
  csiRebuildBlocks c file m reads (c.foldOk m) (hi - lo) lo csiFlushRead crcs

/-- `csi_flush_mark_coverage` at time `now` -/
def csiFlushMarkCoverage (now : Int64) (m : Xmeta) (crcs : List UInt32) : Xmeta :=
  if crcs.any (· = xmetaCrcUnset) then
    { m with noCksumTime := if m.noCksumTime = 0 then now else m.noCksumTime }
  else { m with noCksumTime := 0 }

/-- What the calls of a flush answer. -/
structure CsiFlushEnv : Type where
  now : Int64
  /-- the file's mtime -/
  mtime : UInt64
  /-- can block `b` be read back? -/
  reads : ℕ → Bool

/-- `brix_csi_flush` up to its save: the record it will save, none when there is
nothing to flush. -/
def csiFlush (c : Csi) (file : Bytes) (load : Except XmetaFault Xmeta) (env : CsiFlushEnv) :
    Except Errno (Option Xmeta) :=
  match c.dirty with
  | none => .ok none
  | some e =>
    match csiFlushLoadRecord env.now env.mtime c.granule (UInt64.ofNat file.length).toInt64 load with
    | .error err => .error err
    | .ok m =>
      let crcs := csiFlushRebuildCrcs c e file m env.reads (m.blockcrc.getD [])
      .ok (some (csiFlushMarkCoverage env.now { m with blockcrc := some crcs } crcs))

/-! ## What the handle folds -/

theorem csiWant_gt {fuel want b : ℕ} (hw : 0 < want) (hf : b < want + fuel) :
    b < csiWant fuel want b := by
  induction fuel generalizing want with
  | zero => exact hf
  | succ fuel ih =>
    rw [csiWant]
    by_cases hle : want ≤ b
    · rw [if_pos hle]
      exact ih (by omega) (by omega)
    · rw [if_neg hle]
      omega

theorem getD_append_zeros (l : List UInt32) (n j : ℕ) :
    (l ++ replicate n 0).getD j 0 = l.getD j 0 := by
  rw [getD_eq_getElem?_getD, getD_eq_getElem?_getD, getElem?_append]
  by_cases hj : j < l.length
  · rw [if_pos hj]
  · rw [if_neg hj, getElem?_eq_none (Nat.not_lt.mp hj), getElem?_replicate]
    split <;> rfl

/-- Room for a block, or the overflow mark -/
theorem csiLocalReserve_spec (c : Csi) (b : ℕ) (grows : Bool) :
    ((csiLocalReserve c b grows).1 = true →
        b < (csiLocalReserve c b grows).2.folded.length ∧
        (csiLocalReserve c b grows).2.overflow = c.overflow) ∧
      ((csiLocalReserve c b grows).1 = false → (csiLocalReserve c b grows).2.overflow = true) ∧
      (csiLocalReserve c b grows).2.granule = c.granule ∧
      (csiLocalReserve c b grows).2.dirty = c.dirty ∧
      ∀ j, (csiLocalReserve c b grows).2.folded.getD j 0 = c.folded.getD j 0 := by
  rw [csiLocalReserve]
  by_cases hcap : csiLocalMax ≤ b
  · rw [if_pos hcap]
    exact ⟨(fun h => by cases h), fun _ => rfl, rfl, rfl, fun _ => rfl⟩
  rw [if_neg hcap]
  by_cases hin : b < c.folded.length
  · rw [if_pos hin]
    exact ⟨fun _ => ⟨hin, rfl⟩, (fun h => by cases h), rfl, rfl, fun _ => rfl⟩
  rw [if_neg hin]
  cases grows with
  | false => exact ⟨(fun h => by cases h), fun _ => rfl, rfl, rfl, fun _ => rfl⟩
  | true =>
    refine ⟨fun _ => ⟨?_, rfl⟩, (fun h => by cases h), rfl, rfl, ?_⟩
    · have hwant : b < csiWant (b + 1)
          (if c.folded.length = 0 then 64 else c.folded.length) b := by
        refine csiWant_gt ?_ (by omega)
        by_cases hz : c.folded.length = 0
        · rw [if_pos hz]
          decide
        · rw [if_neg hz]
          omega
      simp only [if_pos, length_append, length_replicate]
      omega
    · exact fun j => getD_append_zeros c.folded _ j

/-- The blocks that are folded have the checksums of their bytes, the others what they had. -/
theorem csiFold_spec (grows : ℕ → Bool) (buf : Bytes) (off g n b : ℕ) (c : Csi) :
    (csiFold grows buf off g n b c).granule = c.granule ∧
      (csiFold grows buf off g n b c).dirty = c.dirty ∧
      ((csiFold grows buf off g n b c).overflow = false → c.overflow = false ∧
        ∀ j, (csiFold grows buf off g n b c).folded.getD j 0 =
          if b ≤ j ∧ j < b + n then crc32cValue (File.pread buf (j * g - off) g)
          else c.folded.getD j 0) := by
  induction n generalizing b c with
  | zero =>
    refine ⟨rfl, rfl, fun h => ⟨h, fun j => ?_⟩⟩
    rw [if_neg (by omega)]
    rfl
  | succ n ih =>
    rw [csiFold]
    obtain ⟨hyes, hno, hgran, hdirty, hkeep⟩ := csiLocalReserve_spec c b (grows b)
    generalize csiLocalReserve c b (grows b) = res at hyes hno hgran hdirty hkeep ⊢
    obtain ⟨r, c'⟩ := res
    cases r with
    | false =>
      refine ⟨hgran, hdirty, fun h => ?_⟩
      rw [hno rfl] at h
      cases h
    | true =>
      obtain ⟨hlen, hover⟩ := hyes rfl
      obtain ⟨hg, hd, hrest⟩ := ih (b + 1)
        { c' with folded := c'.folded.set b (crc32cValue (File.pread buf (b * g - off) g)) }
      refine ⟨hg.trans hgran, hd.trans hdirty, fun h => ?_⟩
      obtain ⟨hc, hfold⟩ := hrest h
      refine ⟨hover ▸ hc, fun j => (hfold j).trans ?_⟩
      by_cases hj : j = b
      · subst hj
        rw [if_neg (by omega), if_pos (by omega), getD_eq_getElem?_getD,
          getElem?_set_self hlen]
        rfl
      · have hset : (c'.folded.set b (crc32cValue (File.pread buf (b * g - off) g))).getD j 0 =
            c.folded.getD j 0 := by
          rw [← hkeep j, getD_eq_getElem?_getD, getD_eq_getElem?_getD,
            getElem?_set_ne (Ne.symm hj)]
        rw [hset]
        by_cases hin : b + 1 ≤ j ∧ j < b + 1 + n
        · rw [if_pos hin, if_pos (by omega)]
        · rw [if_neg hin, if_neg (by omega)]

/-- Is block `b` of granule `g` wholly inside `len` bytes at `off`? -/
def csiCovers (g off len b : ℕ) : Prop := off ≤ b * g ∧ b * g + g ≤ off + len

instance (g off len b : ℕ) : Decidable (csiCovers g off len b) :=
  inferInstanceAs (Decidable (_ ∧ _))

theorem csiCovers_iff {g off len b : ℕ} (hg : 0 < g) :
    (csiFirstBlock g off ≤ b ∧
        b < csiFirstBlock g off + ((off + len) / g - csiFirstBlock g off)) ↔
      csiCovers g off len b := by
  have hfirst : csiFirstBlock g off ≤ b ↔ off ≤ b * g := by
    rw [csiFirstBlock, ← Nat.lt_succ_iff, Nat.div_lt_iff_lt_mul hg, Nat.succ_mul]
    omega
  have hlast : b < (off + len) / g ↔ b * g + g ≤ off + len := by
    rw [Nat.lt_iff_add_one_le, Nat.le_div_iff_mul_le hg, Nat.succ_mul]
  rw [csiCovers, hfirst, ← hlast]
  constructor
  · rintro ⟨h₁, h₂⟩
    exact ⟨h₁, by omega⟩
  · rintro ⟨h₁, h₂⟩
    have h₃ := hfirst.mpr h₁
    exact ⟨h₁, by omega⟩

theorem csiWriteUpdate_spec {c : Csi} {buf : Bytes} {off : ℕ} (grows : ℕ → Bool)
    (hg : 0 < c.granule.toNat) (hlen : 0 < buf.length) :
    (csiWriteUpdate c buf off grows).granule = c.granule ∧
      (csiWriteUpdate c buf off grows).dirty =
        some ((⟨off, off + buf.length, Nat.lt_add_of_pos_right hlen⟩ : Extent).joinOption
          c.dirty) ∧
      ((csiWriteUpdate c buf off grows).overflow = false → c.overflow = false ∧
        ∀ j, (csiWriteUpdate c buf off grows).folded.getD j 0 =
          if csiCovers c.granule.toNat off buf.length j then
            crc32cValue (File.pread buf (j * c.granule.toNat - off) c.granule.toNat)
          else c.folded.getD j 0) := by
  rw [csiWriteUpdate, dif_pos hlen]
  obtain ⟨hgran, hdirty, hfold⟩ := csiFold_spec grows buf off c.granule.toNat
    ((off + buf.length) / c.granule.toNat - csiFirstBlock c.granule.toNat off)
    (csiFirstBlock c.granule.toNat off)
    { c with dirty := some ((⟨off, off + buf.length, Nat.lt_add_of_pos_right hlen⟩ :
      Extent).joinOption c.dirty) }
  refine ⟨hgran, hdirty, fun h => ?_⟩
  obtain ⟨hover, hj⟩ := hfold h
  refine ⟨hover, fun j => (hj j).trans ?_⟩
  by_cases hcov : csiCovers c.granule.toNat off buf.length j
  · rw [if_pos hcov, if_pos ((csiCovers_iff hg).mpr hcov)]
  · rw [if_neg hcov, if_neg fun hin => hcov ((csiCovers_iff hg).mp hin)]

end BrixCache
