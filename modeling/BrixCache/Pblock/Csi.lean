import BrixCache.Core.Crc32c
import BrixCache.Pblock.Blocks
import BrixCache.Lib.Run
import BrixCache.Core.Ascii

/-!
# The per-block checksums of pblock

One pblock file with `csi` armed: its blocks, its row in the catalog, the `csi` rows
of its blob, and the handle that is open on it. An open takes a snapshot of the rows;
a read is verified against it, block by block, but for the blocks in the handle's
written extent; the close computes the rows of that extent again. The functions are
those of `pblock_csi.c`, and the calls of `sd_pblock_io.c` and `sd_pblock_open.c`
that keep the extent.
-/

namespace BrixCache

/-- What a handle keeps of `pblock_obj_t`. -/
structure PblockObj : Type where
  size : ℕ
  /-- snapshot of the rows, 0 where unset, of `csi_n` entries -/
  csiCrc : ℕ → UInt32
  csiN : ℕ
  /-- the written extent, in blocks: `[csi_dlo, csi_dhi)` -/
  csiDlo : ℕ
  csiDhi : ℕ
  dirty : Bool

/-- One file: its blocks, the size in its catalog row, its `csi` rows, and the
handle open on it. -/
structure PblockFile : Type where
  blocks : Blocks
  size : ℕ
  csi : ℕ → Option UInt32
  obj : Option PblockObj

/-- The bytes of block `b`, clamped to the size of the object. -/
def csiBlockBytes (blocks : Blocks) (bs : ℕ+) (size b : ℕ) : Bytes :=
  pblockReadBlocks blocks bs (min bs (size - b * bs)) (b * bs)

namespace PblockObj

/-- Block `b` is in the written extent. -/
def Written (os : PblockObj) (b : ℕ) : Prop := os.csiDlo ≤ b ∧ b < os.csiDhi

instance (os : PblockObj) (b : ℕ) : Decidable (os.Written b) :=
  inferInstanceAs (Decidable (_ ∧ _))

/-- The blocks from `fb` to `lb` join the extent. -/
def widen (os : PblockObj) (fb lb : ℕ) : PblockObj :=
  { os with csiDlo := min os.csiDlo fb, csiDhi := max os.csiDhi (lb + 1) }

end PblockObj

/-- `pblock_csi_load` and the rest of `pblock_make_obj`. -/
def pblockMakeObj (f : PblockFile) (bs : ℕ+) : PblockObj :=
  let nblk := if 0 < f.size then pblockLastBlock f.size bs + 1 else 0
  let cap := if 0 < nblk then nblk else 1
  { size := f.size
    csiCrc := fun b => if b < cap then (f.csi b).getD 0 else 0
    csiN := cap
    -- the empty extent starts at `INT64_MAX`
    csiDlo := 2 ^ 63 - 1
    csiDhi := 0
    dirty := false }

/-- `pblock_csi_verify`, for one block of the buffer. -/
def csiVerifyBlock (os : PblockObj) (bs : ℕ+) (buf : Bytes) (off b : ℕ) : Bool :=
  let bstart := b * bs
  let bend := min (bstart + bs) os.size
  if bend ≤ bstart then true
  else if bstart < off ∨ off + buf.length < bend then true
  else if os.csiN ≤ b ∨ os.csiCrc b = 0 then true
  else if os.Written b then true
  else crc32cValue (File.pread buf (bstart - off) (bend - bstart)) = os.csiCrc b

/-- Compare what a read covers with the block checksums. -/
def pblockCsiVerify (os : PblockObj) (bs : ℕ+) (buf : Bytes) (off : ℕ) : Bool :=
  if os.csiN = 0 ∨ buf.length = 0 then true
  else
    let first := off / bs
    let last := (off + buf.length - 1) / bs
    (List.range' first (last + 1 - first)).all fun b => csiVerifyBlock os bs buf off b

/-- `sd_pblock_pread`, with every block readable. -/
def sdPblockPread (f : PblockFile) (os : PblockObj) (bs : ℕ+) (len off : ℕ) :
    Except Errno Bytes :=
  if os.size ≤ off then .ok []
  else
    let len := min len (os.size - off)
    if len = 0 then .ok []
    else
      let buf := pblockReadBlocks f.blocks bs len off
      if pblockCsiVerify os bs buf off then .ok buf else .error .eio

/-- `pblock_record_write`, of `n` bytes. -/
def pblockRecordWrite (os : PblockObj) (bs : ℕ+) (off n : ℕ) : PblockObj :=
  let os := { os with size := max os.size (off + n), dirty := true }
  os.widen (off / bs) ((off + n - 1) / bs)

/-- `sd_pblock_pwrite`, of which `data` gets through. -/
def sdPblockPwrite (f : PblockFile) (os : PblockObj) (bs : ℕ+) (data : Bytes) (off : ℕ) :
    PblockFile :=
  if data.length = 0 then f
  else
    { f with
      blocks := pblockWriteBlocks f.blocks bs data off
      obj := some (pblockRecordWrite os bs off data.length) }

/-- `sd_pblock_copy_range` into the file: `data` was read from the source and gets
through. The size and the dirty flag are kept up to date. -/
def sdPblockCopyRange (f : PblockFile) (os : PblockObj) (bs : ℕ+) (data : Bytes) (off : ℕ) :
    PblockFile :=
  if data.length = 0 then f
  else
    { f with
      blocks := pblockWriteBlocks f.blocks bs data off
      obj := some { os with size := max os.size (off + data.length), dirty := true } }

/-- Drop the rows behind block `keep`. -/
def pblockCsiTruncate (csi : ℕ → Option UInt32) (keep : ℕ) : ℕ → Option UInt32 :=
  fun b => if keep < b then none else csi b

/-- `sd_pblock_ftruncate`. The rows behind the boundary are deleted unless the
`DELETE` fails, which nobody asks; then the boundary block is trimmed, or not. -/
def sdPblockFtruncate (f : PblockFile) (os : PblockObj) (bs : ℕ+) (len : ℕ)
    (deletes trims : Bool) : PblockFile :=
  let keep := pblockLastBlock len bs
  let csi := if deletes then pblockCsiTruncate f.csi keep else f.csi
  let os := { os.widen keep keep with csiN := min os.csiN (keep + 1) }
  if trims then
    { f with
      blocks := pblockTruncateBlocks f.blocks bs os.size len
      csi := csi
      obj := some { os with size := len, dirty := true } }
  else { f with csi := csi, obj := some os }

/-- The size and mtime of a dirty handle go to the catalog. -/
def PblockFile.touch (f : PblockFile) (os : PblockObj) (touches : Bool) : PblockFile :=
  if os.dirty ∧ touches then { f with size := os.size } else f

@[simp] theorem PblockFile.touch_blocks (f : PblockFile) (os : PblockObj) (touches : Bool) :
    (f.touch os touches).blocks = f.blocks := by
  rw [touch]
  split <;> rfl

@[simp] theorem PblockFile.touch_csi (f : PblockFile) (os : PblockObj) (touches : Bool) :
    (f.touch os touches).csi = f.csi := by
  rw [touch]
  split <;> rfl

/-- Touch the row; the object is clean when that worked. -/
def sdPblockFsync (f : PblockFile) (os : PblockObj) (touches : Bool) : PblockFile :=
  { f.touch os touches with obj := some { os with dirty := os.dirty && !touches } }

/-- The blocks whose rows `pblock_csi_flush` computes again. -/
def CsiFlushes (os : PblockObj) (bs : ℕ+) (b : ℕ) : Prop :=
  os.Written b ∧ 0 < os.size ∧ b ≤ pblockLastBlock os.size bs

instance (os : PblockObj) (bs : ℕ+) (b : ℕ) : Decidable (CsiFlushes os bs b) :=
  inferInstanceAs (Decidable (_ ∧ _ ∧ _))

/-- `pblock_csi_flush`: a row that is not stored is not missed. -/
def pblockCsiFlush (f : PblockFile) (os : PblockObj) (bs : ℕ+) (inserts : ℕ → Bool) :
    ℕ → Option UInt32 :=
  fun b => if CsiFlushes os bs b ∧ inserts b then some (crc32cValue (csiBlockBytes f.blocks bs os.size b))
    else f.csi b

def sdPblockClose (f : PblockFile) (os : PblockObj) (bs : ℕ+) (touches : Bool) (inserts : ℕ → Bool) :
    PblockFile :=
  { f.touch os touches with csi := pblockCsiFlush f os bs inserts, obj := none }

/-- `sd_pblock_open` of the existing file, for writing when it truncates. -/
def sdPblockOpen (f : PblockFile) (bs : ℕ+) (trunc deletes : Bool) : PblockFile :=
  let os := pblockMakeObj f bs
  let opened := { f with obj := some os }
  if trunc ∧ 0 < f.size then sdPblockFtruncate opened os bs 0 deletes true else opened

/-- `sd_pblock_staged_commit` of so many bytes in these blocks: all rows are
computed. -/
def pblockStagedFile (blocks : Blocks) (bs : ℕ+) (size : ℕ) (inserts : ℕ → Bool) : PblockFile where
  blocks := blocks
  size := size
  csi := fun b =>
    if 0 < size ∧ b ≤ pblockLastBlock size bs ∧ inserts b then
      some (crc32cValue (csiBlockBytes blocks bs size b))
    else none
  obj := none

def pblockCreated : PblockFile where
  blocks := fun b => if b = 0 then some [] else none
  size := 0
  csi := fun _ => none
  obj := none

/-- A new file opened for writing. -/
def pblockOpenCreate (bs : ℕ+) : PblockFile :=
  { pblockCreated with obj := some (pblockMakeObj pblockCreated bs) }

end BrixCache

/-!
## Runs over a checksummed file

The rows of the blocks outside the handle's written extent stay true as long as each change of
such a block puts it into the extent.
-/

namespace BrixCache

/-- The calls on a file with a checksum record -/
inductive PblockIoCall : Type where
  /-- with `O_TRUNC` or not -/
  | openFile : (trunc deletes : Bool) → PblockIoCall
  /-- the bytes that get through, and where -/
  | pwrite : Bytes → ℕ → PblockIoCall
  | copyRange : Bytes → ℕ → PblockIoCall
  | ftruncate : (len : ℕ) → (deletes trims : Bool) → PblockIoCall
  | fsync : (touches : Bool) → PblockIoCall
  | close : (touches : Bool) → (inserts : ℕ → Bool) → PblockIoCall

/-- One call on a file, open or closed -/
inductive PblockIoStep (bs : ℕ+) : PblockFile → PblockIoCall → PblockFile → Prop where
  | openFile {f : PblockFile} {trunc deletes : Bool} (hclosed : f.obj = none) :
      PblockIoStep bs f (.openFile trunc deletes) (sdPblockOpen f bs trunc deletes)
  | pwrite {f : PblockFile} {os : PblockObj} {data : Bytes} {off : ℕ}
      (hopen : f.obj = some os) :
      PblockIoStep bs f (.pwrite data off) (sdPblockPwrite f os bs data off)
  | copyRange {f : PblockFile} {os : PblockObj} {data : Bytes} {off : ℕ}
      (hopen : f.obj = some os) :
      PblockIoStep bs f (.copyRange data off) (sdPblockCopyRange f os bs data off)
  | ftruncate {f : PblockFile} {os : PblockObj} {len : ℕ} {deletes trims : Bool}
      (hopen : f.obj = some os) :
      PblockIoStep bs f (.ftruncate len deletes trims) (sdPblockFtruncate f os bs len deletes trims)
  | fsync {f : PblockFile} {os : PblockObj} {touches : Bool} (hopen : f.obj = some os) :
      PblockIoStep bs f (.fsync touches) (sdPblockFsync f os touches)
  | close {f : PblockFile} {os : PblockObj} {touches : Bool} {inserts : ℕ → Bool}
      (hopen : f.obj = some os) :
      PblockIoStep bs f (.close touches inserts) (sdPblockClose f os bs touches inserts)

/-- The row of block `b`, or its entry in the handle's snapshot. -/
def Recorded (f : PblockFile) (os : PblockObj) (b : ℕ) (crc : UInt32) : Prop :=
  f.csi b = some crc ∨ (b < os.csiN ∧ os.csiCrc b = crc ∧ crc ≠ 0)

/-- Growing the object to `size` changes the block it ends in, when that is not
full. Then the block is in the written extent `os'`, or has no checksum. -/
def GrowsMarked (f : PblockFile) (os os' : PblockObj) (bs : ℕ+) (size : ℕ) : Prop :=
  os.size < size → os.size % bs ≠ 0 →
    os'.Written (os.size / bs) ∨ ∀ crc, ¬Recorded f os (os.size / bs) crc

/-- What keeps the checksums true. -/
def PblockIoCall.Good (bs : ℕ+) (f : PblockFile) : PblockIoCall → Prop
  | .openFile trunc deletes => trunc = true → deletes = true ∨ ∀ b, 0 < b → f.csi b = none
  | .pwrite data off =>
    data ≠ [] → ∀ os, f.obj = some os →
      GrowsMarked f os (pblockRecordWrite os bs off data.length) bs (off + data.length)
  | .copyRange data off =>
    data ≠ [] → ∀ os, f.obj = some os →
      (∀ b, off / bs ≤ b → b ≤ (off + data.length - 1) / bs →
        os.Written b ∨ ∀ crc, ¬Recorded f os b crc) ∧
      GrowsMarked f os os bs (off + data.length)
  | .ftruncate len deletes trims =>
    ∀ os, f.obj = some os →
      (deletes = true ∨ ∀ b, pblockLastBlock len bs < b → f.csi b = none) ∧
      (trims = true →
        GrowsMarked f os (os.widen (pblockLastBlock len bs) (pblockLastBlock len bs)) bs len)
  | .fsync _ => True
  | .close touches inserts =>
    ∀ os, f.obj = some os →
      (touches = true ∨ os.size = f.size) ∧
      (∀ b, CsiFlushes os bs b → f.csi b ≠ none → inserts b = true) ∧
      (os.size = 0 → f.csi 0 = none)

/-- **The invariant.** -/
structure CsiTrue (bs : ℕ+) (f : PblockFile) : Prop where
  /-- closed: every row is its block's -/
  closed : f.obj = none → ∀ b crc, f.csi b = some crc →
    b * bs < f.size ∧ crc = crc32cValue (csiBlockBytes f.blocks bs f.size b)
  /-- open: every row or snapshot outside the extent is -/
  unwritten : ∀ os, f.obj = some os → ∀ b crc, Recorded f os b crc → ¬os.Written b →
    b * bs < os.size ∧ crc = crc32cValue (csiBlockBytes f.blocks bs os.size b)
  /-- no rows behind the end -/
  rows : ∀ os, f.obj = some os → ∀ b, f.csi b ≠ none → b ≤ pblockLastBlock os.size bs
  clean : ∀ os, f.obj = some os → os.dirty = false → os.size = f.size

variable {bs : ℕ+} {f f' : PblockFile} {os : PblockObj}

/-! ### Blocks and extents -/

variable {b size size' : ℕ} {blocks : Blocks}

theorem PblockObj.of_not_written_widen {fb lb : ℕ} (h : ¬(os.widen fb lb).Written b) :
    ¬os.Written b ∧ (b < fb ∨ lb < b) := by
  simp only [PblockObj.Written, PblockObj.widen] at h ⊢
  omega

theorem csiBlockBytes_congr {blocks' : Blocks}
    (hbytes : ∀ i, i / bs = b → blockByte blocks' bs i = blockByte blocks bs i)
    (hlen : min (bs : ℕ) (size' - b * bs) = min (bs : ℕ) (size - b * bs)) :
    csiBlockBytes blocks' bs size' b = csiBlockBytes blocks bs size b := by
  rw [csiBlockBytes, csiBlockBytes, hlen]
  apply List.ext_getElem?
  intro j
  rw [pblockReadBlocks_getElem?, pblockReadBlocks_getElem?]
  by_cases hj : j < min (bs : ℕ) (size - b * bs)
  · rw [if_pos hj, if_pos hj, hbytes]
    rw [Nat.mul_comm, Nat.mul_add_div bs.pos, Nat.div_eq_of_lt (by omega), Nat.add_zero]
  · rw [if_neg hj, if_neg hj]

theorem min_sub_of_grow (hb : b * bs < size) (hle : size ≤ size')
    (hlast : size < size' → size % bs ≠ 0 → b ≠ size / bs) :
    min (bs : ℕ) (size' - b * bs) = min (bs : ℕ) (size - b * bs) := by
  by_cases hfull : b * bs + bs ≤ size
  · omega
  · have hdiv := Nat.div_add_mod' size bs
    have hmod := Nat.mod_lt size bs.pos
    have hq : size / bs = b := Nat.div_eq_of_lt_le (by omega) (by rw [Nat.succ_mul]; omega)
    by_cases heq : size = size'
    · rw [heq]
    · exfalso
      refine hlast (by omega) ?_ hq.symm
      intro hzero
      rw [hzero, hq] at hdiv
      omega

theorem blockByte_write_of_out {data : Bytes} {off i : ℕ}
    (hout : b < off / bs ∨ (off + data.length - 1) / bs < b)
    (hi : i / bs = b) :
    blockByte (pblockWriteBlocks blocks bs data off) bs i = blockByte blocks bs i := by
  rw [blockByte_write, if_neg]
  rintro ⟨hlow, hhigh⟩
  have hfirst : off / bs ≤ i / bs := Nat.div_le_div_right hlow
  have hlast : i / bs ≤ (off + data.length - 1) / bs := Nat.div_le_div_right (by omega)
  omega

theorem blockByte_truncate_of_lt {len i : ℕ} (hi : i / bs < pblockLastBlock len bs) :
    blockByte (pblockTruncateBlocks blocks bs size len) bs i = blockByte blocks bs i := by
  rw [pblockTruncateBlocks, blockByte_drop, blockByte_update, if_neg (by omega), if_neg (by omega)]

theorem le_pblockLastBlock_of_lt (h : b * bs < size) : b ≤ pblockLastBlock size bs := by
  have hle := div_le_pblockLastBlock bs h
  rwa [Nat.mul_div_cancel _ bs.pos] at hle

theorem pblockLastBlock_mono (h : size ≤ size') :
    pblockLastBlock size bs ≤ pblockLastBlock size' bs := by
  rw [pblockLastBlock, pblockLastBlock]
  split
  · exact Nat.zero_le _
  · rw [if_neg (by omega)]
    exact Nat.div_le_div_right (by omega)

theorem mul_lt_of_le_pblockLastBlock (hpos : 0 < size)
    (h : b ≤ pblockLastBlock size bs) : b * bs < size := by
  rw [pblockLastBlock, if_neg (by omega)] at h
  have hle := Nat.mul_le_mul_right (bs : ℕ) h
  have hdiv := Nat.div_mul_le_self (size - 1) bs
  omega

namespace CsiTrue

section

variable (h : CsiTrue bs f)
include h

theorem kept (hopen : f.obj = some os) {blocks' : Blocks} {size' b : ℕ}
    {crc : UInt32} (hrec : Recorded f os b crc) (hout : ¬os.Written b)
    (hbytes : ∀ i, i / bs = b → blockByte blocks' bs i = blockByte f.blocks bs i)
    (hlen : b * bs < os.size → min (bs : ℕ) (size' - b * bs) = min (bs : ℕ) (os.size - b * bs)) :
    b * bs < size' ∧ crc = crc32cValue (csiBlockBytes blocks' bs size' b) := by
  obtain ⟨hin, hcrc⟩ := h.unwritten os hopen b crc hrec hout
  have hlen := hlen hin
  have hpos := bs.pos
  refine ⟨by omega, ?_⟩
  rw [csiBlockBytes_congr hbytes hlen]
  exact hcrc

theorem makeObj (hclosed : f.obj = none) :
    CsiTrue bs { f with obj := some (pblockMakeObj f bs) } where
  closed := nofun
  unwritten := by
    rintro os ⟨⟩ b crc hrec -
    have hrow : f.csi b = some crc := by
      obtain hrow | ⟨hlt, hcrc, hne⟩ := hrec
      · exact hrow
      · simp only [pblockMakeObj] at hlt hcrc
        rw [if_pos hlt] at hcrc
        cases hb : f.csi b with
        | none =>
          rw [hb] at hcrc
          exact absurd hcrc.symm hne
        | some c =>
          rw [hb] at hcrc
          exact congrArg some hcrc
    exact h.closed hclosed b crc hrow
  rows := by
    rintro os ⟨⟩ b hrow
    obtain ⟨crc, hcrc⟩ := Option.ne_none_iff_exists'.mp hrow
    exact le_pblockLastBlock_of_lt (h.closed hclosed b crc hcrc).1
  clean := by
    rintro os ⟨⟩ -
    rfl

theorem pwrite (hopen : f.obj = some os) {data : Bytes} {off : ℕ}
    (hgood : (PblockIoCall.pwrite data off).Good bs f) :
    CsiTrue bs (sdPblockPwrite f os bs data off) := by
  rw [sdPblockPwrite]
  split
  · exact h
  · rename_i hne
    have hmarks := hgood (List.length_pos_iff.mp (Nat.pos_of_ne_zero hne)) os hopen
    refine ⟨nofun, ?_, ?_, nofun⟩
    · rintro os' ⟨⟩ b crc hrec hout
      obtain ⟨hout₀, hrange⟩ := PblockObj.of_not_written_widen hout
      apply h.kept hopen hrec hout₀
      · intro i hi
        exact blockByte_write_of_out hrange hi
      · intro hin
        refine min_sub_of_grow hin (Nat.le_max_left os.size (off + data.length)) ?_
        rintro hgrow hpart rfl
        have hmax : os.size < max os.size (off + data.length) := hgrow
        exact (hmarks (by omega) hpart).elim hout fun hnone => hnone crc hrec
    · rintro os' ⟨⟩ b hrow
      exact Nat.le_trans (h.rows os hopen b hrow) (pblockLastBlock_mono (Nat.le_max_left _ _))

theorem copyRange (hopen : f.obj = some os) {data : Bytes} {off : ℕ}
    (hgood : (PblockIoCall.copyRange data off).Good bs f) :
    CsiTrue bs (sdPblockCopyRange f os bs data off) := by
  rw [sdPblockCopyRange]
  split
  · exact h
  · rename_i hne
    obtain ⟨htouch, hmarks⟩ := hgood (List.length_pos_iff.mp (Nat.pos_of_ne_zero hne)) os hopen
    refine ⟨nofun, ?_, ?_, nofun⟩
    · rintro os' ⟨⟩ b crc hrec hout
      apply h.kept hopen hrec hout
      · intro i hi
        apply blockByte_write_of_out _ hi
        by_contra hin
        exact (htouch b (by omega) (by omega)).elim hout fun hnone => hnone crc hrec
      · intro hin
        refine min_sub_of_grow hin (Nat.le_max_left os.size (off + data.length)) ?_
        rintro hgrow hpart rfl
        have hmax : os.size < max os.size (off + data.length) := hgrow
        exact (hmarks (by omega) hpart).elim hout fun hnone => hnone crc hrec
    · rintro os' ⟨⟩ b hrow
      exact Nat.le_trans (h.rows os hopen b hrow) (pblockLastBlock_mono (Nat.le_max_left _ _))

/-- A truncation that meets the condition leaves true checksums. -/
theorem ftruncate (hopen : f.obj = some os) {len : ℕ} {deletes trims : Bool}
    (hgood : (PblockIoCall.ftruncate len deletes trims).Good bs f) :
    CsiTrue bs (sdPblockFtruncate f os bs len deletes trims) := by
  obtain ⟨hdeletes, hmarks⟩ := hgood os hopen
  -- the rows left are up to the boundary block
  have hleft : ∀ b, (if deletes then pblockCsiTruncate f.csi (pblockLastBlock len bs) else f.csi) b ≠
      none → b ≤ pblockLastBlock len bs ∧ f.csi b ≠ none := by
    intro b hrow
    cases deletes with
    | true =>
      simp only [if_true, pblockCsiTruncate] at hrow
      split at hrow
      · exact absurd rfl hrow
      · exact ⟨by omega, hrow⟩
    | false =>
      refine ⟨?_, hrow⟩
      by_contra hlt
      exact hrow (hdeletes.resolve_left Bool.false_ne_true b (by omega))
  have hsame : ∀ b crc, (if deletes then pblockCsiTruncate f.csi (pblockLastBlock len bs) else f.csi) b =
      some crc → f.csi b = some crc := by
    intro b crc hrow
    cases deletes with
    | true =>
      simp only [if_true, pblockCsiTruncate] at hrow
      split at hrow
      · cases hrow
      · exact hrow
    | false => exact hrow
  have hkept : ∀ b crc,
      ((if deletes then pblockCsiTruncate f.csi (pblockLastBlock len bs) else f.csi) b = some crc ∨
        (b < min os.csiN (pblockLastBlock len bs + 1) ∧ os.csiCrc b = crc ∧ crc ≠ 0)) →
      b ≤ pblockLastBlock len bs ∧ Recorded f os b crc := by
    intro b crc hrec
    obtain hrow | ⟨hlt, hcrc, hne⟩ := hrec
    · exact ⟨(hleft b (by rw [hrow]; exact Option.some_ne_none crc)).1, .inl (hsame b crc hrow)⟩
    · exact ⟨by omega, .inr ⟨by omega, hcrc, hne⟩⟩
  cases trims with
  | false =>
    refine ⟨nofun, ?_, ?_, ?_⟩
    · rintro os' ⟨⟩ b crc hrec hout
      obtain ⟨-, hrec₀⟩ := hkept b crc hrec
      obtain ⟨hout₀, -⟩ := PblockObj.of_not_written_widen hout
      exact h.unwritten os hopen b crc hrec₀ hout₀
    · rintro os' ⟨⟩ b hrow
      exact h.rows os hopen b (hleft b hrow).2
    · rintro os' ⟨⟩ hclean
      exact h.clean os hopen hclean
  | true =>
    refine ⟨nofun, ?_, ?_, nofun⟩
    · rintro os' ⟨⟩ b crc hrec hout
      obtain ⟨hle, hrec₀⟩ := hkept b crc hrec
      obtain ⟨hout₀, hrange⟩ := PblockObj.of_not_written_widen hout
      have hlt : b < pblockLastBlock len bs := by omega
      apply h.kept hopen hrec₀ hout₀
      · rintro i rfl
        exact blockByte_truncate_of_lt hlt
      · intro hin
        have hbound := (pblockLastBlock_spec len bs).1
        have hmul := Nat.mul_le_mul_right (bs : ℕ) (Nat.succ_le_of_lt hlt)
        rw [Nat.succ_mul] at hmul
        by_cases hgrow : os.size ≤ len
        · apply min_sub_of_grow hin hgrow
          rintro hless hpart rfl
          exact (hmarks rfl hless hpart).elim hout fun hnone => hnone crc hrec₀
        · change min (bs : ℕ) (len - b * bs) = _
          omega
    · rintro os' ⟨⟩ b hrow
      exact (hleft b hrow).1

/-- A close that meets the condition leaves true checksums. -/
theorem close (hopen : f.obj = some os) {touches : Bool} {inserts : ℕ → Bool}
    (hgood : (PblockIoCall.close touches inserts).Good bs f) :
    CsiTrue bs (sdPblockClose f os bs touches inserts) := by
  obtain ⟨htouch, hinserts, hempty⟩ := hgood os hopen
  have hsize : (f.touch os touches).size = os.size := by
    rw [PblockFile.touch]
    split
    · rfl
    · rename_i hnot
      obtain rfl | hsame := htouch
      · have hclean : os.dirty = false := by simpa using hnot
        exact (h.clean os hopen hclean).symm
      · exact hsame.symm
  refine ⟨?_, (fun _ h => by cases h), (fun _ h => by cases h), (fun _ h => by cases h)⟩
  rintro - b crc hrow
  change b * bs < (f.touch os touches).size ∧
    crc = crc32cValue (csiBlockBytes (f.touch os touches).blocks bs (f.touch os touches).size b)
  rw [hsize, f.touch_blocks]
  change (if CsiFlushes os bs b ∧ inserts b then _ else f.csi b) = some crc at hrow
  by_cases hflush : CsiFlushes os bs b ∧ inserts b = true
  · rw [if_pos hflush] at hrow
    obtain ⟨⟨-, hpos, hle⟩, -⟩ := hflush
    exact ⟨mul_lt_of_le_pblockLastBlock hpos hle, (Option.some.inj hrow).symm⟩
  · rw [if_neg hflush] at hrow
    have hsome : f.csi b ≠ none := by
      rw [hrow]
      exact Option.some_ne_none crc
    apply h.unwritten os hopen b crc (.inl hrow)
    -- what is in the extent and not computed again is behind the end
    intro hwritten
    by_cases hzero : os.size = 0
    · have hb := h.rows os hopen b hsome
      rw [hzero, pblockLastBlock, if_pos rfl, Nat.le_zero] at hb
      rw [hb] at hsome
      exact hsome (hempty hzero)
    · have hflushes : CsiFlushes os bs b :=
        ⟨hwritten, Nat.pos_of_ne_zero hzero, h.rows os hopen b hsome⟩
      exact hflush ⟨hflushes, hinserts b hflushes hsome⟩

/-- **One call** that meets the condition leaves true checksums. -/
theorem step {c : PblockIoCall} (hstep : PblockIoStep bs f c f')
    (hgood : c.Good bs f) : CsiTrue bs f' := by
  cases hstep with
  | @openFile trunc deletes hclosed =>
    have hmade := h.makeObj hclosed
    rw [sdPblockOpen]
    split
    · rename_i htrunc
      apply hmade.ftruncate rfl
      rintro os ⟨⟩
      refine ⟨hgood htrunc.1, ?_⟩
      rintro - hgrow
      exact absurd hgrow (Nat.not_lt_zero _)
    · exact hmade
  | pwrite hopen => exact h.pwrite hopen hgood
  | copyRange hopen => exact h.copyRange hopen hgood
  | ftruncate hopen => exact h.ftruncate hopen hgood
  | @fsync os touches hopen =>
    refine ⟨nofun, ?_, ?_, ?_⟩
    · rintro os' ⟨⟩ b crc hrec hout
      rw [Recorded, sdPblockFsync, f.touch_csi] at hrec
      rw [sdPblockFsync, f.touch_blocks]
      exact h.unwritten os hopen b crc hrec hout
    · rintro os' ⟨⟩ b hrow
      rw [sdPblockFsync, f.touch_csi] at hrow
      exact h.rows os hopen b hrow
    · rintro os' ⟨⟩ hclean
      change os.size = (f.touch os touches).size
      rw [PblockFile.touch]
      split
      · rfl
      · rename_i hnot
        apply h.clean os hopen
        cases hd : os.dirty <;> cases touches <;> simp_all
  | close hopen => exact h.close hopen hgood

theorem pread (hopen : f.obj = some os) (len off : ℕ) :
    sdPblockPread f os bs len off =
      .ok (pblockReadBlocks f.blocks bs (min len (os.size - off)) off) := by
  have hnil : pblockReadBlocks f.blocks bs 0 off = [] := by
    rw [pblockReadBlocks, dif_pos rfl]
  rw [sdPblockPread]
  split
  · rename_i heof
    rw [Nat.sub_eq_zero_of_le heof, Nat.min_zero, hnil]
  · dsimp only
    split
    · rename_i hzero
      rw [hzero, hnil]
    · rw [if_pos]
      rw [pblockCsiVerify]
      split
      · rfl
      · rw [List.all_eq_true]
        intro b hb
        simp only [csiVerifyBlock, pblockReadBlocks_length]
        split
        · rfl
        · split
          · rfl
          · split
            · rfl
            · split
              · rfl
              · rename_i hin hcover hrecorded hout
                have hrec : Recorded f os b (os.csiCrc b) :=
                  .inr ⟨by omega, rfl, fun hz => hrecorded (.inr hz)⟩
                obtain ⟨-, hcrc⟩ := h.unwritten os hopen b _ hrec hout
                have hstart : off + (b * bs - off) = b * bs := by omega
                have hlen : min (b * bs + bs) os.size - b * bs = min (bs : ℕ) (os.size - b * bs) := by
                  omega
                rw [decide_eq_true_eq, pread_pblockReadBlocks _ _ (by omega), hstart, hlen, hcrc,
                  csiBlockBytes]

end

end CsiTrue

/-- A file as it comes to be: created, with its handle open, or committed from a
staged upload. -/
def PblockFile.Init (bs : ℕ+) (f : PblockFile) : Prop :=
  f = pblockOpenCreate bs ∨ ∃ blocks size inserts, f = pblockStagedFile blocks bs size inserts

theorem PblockFile.Init.csiTrue (h : f.Init bs) : CsiTrue bs f := by
  obtain rfl | ⟨blocks, size, inserts, rfl⟩ := h
  · have hbare : CsiTrue bs pblockCreated := ⟨nofun, nofun, nofun, nofun⟩
    exact hbare.makeObj rfl
  · refine ⟨?_, nofun, nofun, nofun⟩
    rintro - b crc hrow
    simp only [pblockStagedFile] at hrow
    split at hrow
    · rename_i hin
      exact ⟨mul_lt_of_le_pblockLastBlock hin.1 hin.2.1, (Option.some.inj hrow).symm⟩
    · cases hrow

/-- **Checksums never turn good data into an error.** In every run whose calls are
good, every read of the open file gives its bytes, and every row of the closed file
is the checksum of its block. -/
theorem pblockCsi_of_good {calls : List PblockIoCall} (hinit : f.Init bs)
    (h : Run (fun f c f' => PblockIoStep bs f c f' ∧ c.Good bs f) f calls f') :
    (∀ os, f'.obj = some os → ∀ len off,
      sdPblockPread f' os bs len off =
        .ok (pblockReadBlocks f'.blocks bs (min len (os.size - off)) off)) ∧
    (f'.obj = none → ∀ b crc, f'.csi b = some crc →
      crc = crc32cValue (csiBlockBytes f'.blocks bs f'.size b)) := by
  have htrue : CsiTrue bs f' := h.invariant (I := CsiTrue bs)
    (fun _ _ _ hinv hstep => hinv.step hstep.1 hstep.2) hinit.csiTrue
  refine ⟨fun os hopen len off => htrue.pread hopen len off, ?_⟩
  intro hclosed b crc hrow
  exact (htrue.closed hclosed b crc hrow).2

/-! ### A file of four bytes -/

attribute [local instance] neZero_four

/-- The handle of the new file, and after a write of all of block 0. -/
def tinyObj : PblockObj := pblockMakeObj pblockCreated 4

def tinyObjWritten : PblockObj := pblockRecordWrite tinyObj 4 0 4

/-- The file written, closed and opened again, ... -/
def tinyFile : PblockFile :=
  sdPblockOpen
    (sdPblockClose (sdPblockPwrite (pblockOpenCreate 4) tinyObj 4 [1, 2, 3, 4] 0) tinyObjWritten 4 true
      fun _ => true)
    4 false true

def tinyFileObj : PblockObj := tinyFile.obj.getD tinyObj

def tinyFileCalls : List PblockIoCall :=
  [.pwrite [1, 2, 3, 4] 0, .close true fun _ => true, .openFile false true]

theorem tinyFile_run :
    Run (fun f c f' => PblockIoStep 4 f c f' ∧ c.Good 4 f) (pblockOpenCreate 4) tinyFileCalls
      tinyFile := by
  refine .cons ⟨.pwrite rfl, ?_⟩ (.cons ⟨.close rfl, ?_⟩ (.cons ⟨.openFile rfl, nofun⟩ (.nil _)))
  · rintro - os ⟨⟩ - hpart
    exact absurd rfl hpart
  · rintro os ⟨⟩
    exact ⟨.inl rfl, fun _ _ _ => rfl, nofun⟩

theorem pblockCsi_of_good_sample :
    sdPblockPread (sdPblockPwrite tinyFile tinyFileObj 4 [9] 1) (pblockRecordWrite tinyFileObj 4 1 1) 4
      4 0 = .ok [1, 9, 3, 4] := by
  have hopen : tinyFile.obj = some tinyFileObj := rfl
  have hgood : (PblockIoCall.pwrite [9] 1).Good 4 tinyFile := by
    rintro - os ⟨⟩ hgrow
    exact absurd hgrow (by decide)
  have hrun := tinyFile_run.append (.one ⟨.pwrite hopen, hgood⟩)
  have hread := (pblockCsi_of_good (.inl rfl) hrun).1 (pblockRecordWrite tinyFileObj 4 1 1) rfl 4 0
  rw [hread]
  decide +kernel

/-- A range copy into the file: the block it changed is refused. -/
theorem copy_range_turns_to_eio :
    ¬∀ bs f calls f', f.Init bs → Run (PblockIoStep bs) f calls f' →
      ∀ os, f'.obj = some os → ∀ len off, ∃ bytes, sdPblockPread f' os bs len off = .ok bytes := by
  intro h
  have hopen : tinyFile.obj = some tinyFileObj := rfl
  have hcopy : PblockIoStep 4 tinyFile (.copyRange [9] 1)
      (sdPblockCopyRange tinyFile tinyFileObj 4 [9] 1) := .copyRange hopen
  have hrun := (tinyFile_run.mono fun _ _ _ hstep => hstep.1).append (.one hcopy)
  obtain ⟨bytes, hread⟩ := h 4 _ _ _ (.inl rfl) hrun _ rfl 4 0
  have hrefused : sdPblockPread (sdPblockCopyRange tinyFile tinyFileObj 4 [9] 1)
      ((sdPblockCopyRange tinyFile tinyFileObj 4 [9] 1).obj.getD tinyObj) 4 4 0 = .error .eio := by
    decide +kernel
  exact nomatch hrefused.symm.trans hread

end BrixCache
