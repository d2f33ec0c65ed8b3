import BrixCache.Lib.Cuts
import BrixCache.Lib.Posix
import BrixCache.Core.Ascii
import Mathlib.Algebra.Ring.Nat
import Mathlib.Data.PNat.Defs

/-!
# The block files of a blob

The storage engine of `pblock_store.c`, on an export without a transform: a blob's
bytes are striped over block files of a fixed size, a block that was never written
has no file, and what a file lacks reads as zeros. `blockByte` is the byte such a
blob has at a position; the loops of the engine read it, write it and remove it.
-/

namespace BrixCache

open Function List

/-- The block files of one blob, by block index. -/
abbrev Blocks : Type := ℕ → Option Bytes

theorem neZero_four : NeZero 4 := ⟨by decide⟩

def pblockLastBlock (size : ℕ) (bs : ℕ+) : ℕ := if size = 0 then 0 else (size - 1) / bs

/-- One striped segment of a transfer. -/
structure PblockSeg : Type where
  idx : ℕ
  /-- offset within the block -/
  boff : ℕ
  /-- bytes of this segment -/
  chunk : ℕ

/-- `pblock_seg_at`, with the cursor at `off` and `len` bytes to go. -/
def pblockSegAt (bs : ℕ+) (off len : ℕ) : PblockSeg where
  idx := off / bs
  boff := off % bs
  chunk := min len (bs - off % bs)

theorem pblockSegAt_chunk_pos (bs : ℕ+) (off : ℕ) {len : ℕ} (h : len ≠ 0) :
    0 < (pblockSegAt bs off len).chunk := by
  have hmod := Nat.mod_lt off bs.pos
  simp only [pblockSegAt]
  omega

theorem pblockSegAt_chunk_le (bs : ℕ+) (off len : ℕ) : (pblockSegAt bs off len).chunk ≤ len :=
  Nat.min_le_left _ _

/-- What `pread` gives of a block, short blocks and missing ones filled up with
zeros. -/
def readSeg (blocks : Blocks) (sg : PblockSeg) : Bytes :=
  match blocks sg.idx with
  | none => replicate sg.chunk 0
  | some file => File.ftruncate 0 (File.pread file sg.boff sg.chunk) sg.chunk

/-- `pblock_read_blocks`, with every block readable. -/
def pblockReadBlocks (blocks : Blocks) (bs : ℕ+) (len off : ℕ) : Bytes :=
  if h : len = 0 then []
  else
    have := pblockSegAt_chunk_pos bs off h
    let sg := pblockSegAt bs off len
    readSeg blocks sg ++ pblockReadBlocks blocks bs (len - sg.chunk) (off + sg.chunk)
  termination_by len

/-- One `pwrite` of the writing loop. -/
structure BlockPiece : Type where
  idx : ℕ
  boff : ℕ
  bytes : Bytes

/-- The `pwrite` calls of `pblock_write_blocks`, in order. -/
def blockPieces (bs : ℕ+) (data : Bytes) (off : ℕ) : List BlockPiece :=
  if h : data.length = 0 then []
  else
    have := pblockSegAt_chunk_pos bs off h
    let sg := pblockSegAt bs off data.length
    ⟨sg.idx, sg.boff, data.take sg.chunk⟩ :: blockPieces bs (data.drop sg.chunk) (off + sg.chunk)
  termination_by data.length

/-- The block is opened `O_CREAT` and written. -/
def BlockPiece.put (p : BlockPiece) (blocks : Blocks) : Blocks :=
  update blocks p.idx (some (File.pwrite 0 ((blocks p.idx).getD []) p.boff p.bytes))

/-- `pblock_write_blocks`: the blocks after a write that got `data` through. -/
def pblockWriteBlocks (blocks : Blocks) (bs : ℕ+) (data : Bytes) (off : ℕ) : Blocks :=
  (blockPieces bs data off).foldl (fun blocks p => p.put blocks) blocks

/-- The `n` block files from `lo` on are unlinked. -/
def dropBlocks (blocks : Blocks) (lo n : ℕ) : Blocks :=
  (range' lo n).foldl (fun blocks i => update blocks i none) blocks

/-- What `sd_pblock_ftruncate` does to the blocks of an object of `size` bytes: the
boundary block is cut to the part it keeps, and the blocks behind it go. -/
def pblockTruncateBlocks (blocks : Blocks) (bs : ℕ+) (size len : ℕ) : Blocks :=
  let keep := pblockLastBlock len bs
  let boundary := len - keep * bs
  let trimmed :=
    update blocks keep (some (File.ftruncate 0 ((blocks keep).getD []) boundary))
  dropBlocks trimmed (keep + 1) (pblockLastBlock size bs - keep)

/-! ## The bytes of a blob -/

/-- The byte at position `i`. -/
def blockByte (blocks : Blocks) (bs : ℕ+) (i : ℕ) : UInt8 :=
  ((blocks (i / bs)).getD []).getD (i % bs) 0

variable {blocks : Blocks} {bs : ℕ+}

theorem readSeg_getElem? (blocks : Blocks) (sg : PblockSeg) {j : ℕ} (h : j < sg.chunk) :
    (readSeg blocks sg)[j]? = some (((blocks sg.idx).getD []).getD (sg.boff + j) 0) := by
  rw [readSeg]
  cases blocks sg.idx with
  | none => simp [h]
  | some file =>
    rw [File.getElem?_ftruncate 0 _ h, File.getElem?_pread, if_pos h]
    simp

theorem readSeg_length (blocks : Blocks) (sg : PblockSeg) :
    (readSeg blocks sg).length = sg.chunk := by
  rw [readSeg]
  split <;> simp

theorem pblockSegAt_pos (bs : ℕ+) {off len j : ℕ} (h : j < (pblockSegAt bs off len).chunk) :
    (off + j) / bs = (pblockSegAt bs off len).idx ∧
      (off + j) % bs = (pblockSegAt bs off len).boff + j := by
  have hlt : off % bs + j < bs := by
    simp only [pblockSegAt] at h
    omega
  have hsplit : off + j = off % bs + j + bs * (off / bs) := by
    have hdiv := Nat.mod_add_div off bs
    omega
  simp only [pblockSegAt]
  rw [hsplit, Nat.add_mul_div_left _ _ bs.pos, Nat.add_mul_mod_self_left, Nat.div_eq_of_lt hlt,
    Nat.mod_eq_of_lt hlt]
  exact ⟨Nat.zero_add _, rfl⟩

theorem pblockReadBlocks_getElem? (blocks : Blocks) (bs : ℕ+) (len off j : ℕ) :
    (pblockReadBlocks blocks bs len off)[j]? =
      if j < len then some (blockByte blocks bs (off + j)) else none := by
  induction len using Nat.strong_induction_on generalizing off j with
  | _ len ih =>
    rw [pblockReadBlocks]
    by_cases hlen : len = 0
    · rw [dif_pos hlen, if_neg (by omega)]
      rfl
    · have hpos := pblockSegAt_chunk_pos bs off hlen
      have hle := pblockSegAt_chunk_le bs off len
      rw [dif_neg hlen]
      by_cases hj : j < (pblockSegAt bs off len).chunk
      · obtain ⟨hdiv, hmod⟩ := pblockSegAt_pos bs hj
        rw [getElem?_append_left (by rwa [readSeg_length]), readSeg_getElem? blocks _ hj,
          if_pos (by omega), blockByte, hdiv, hmod]
      · rw [getElem?_append_right (by rw [readSeg_length]; omega), readSeg_length,
          ih _ (by omega)]
        have hoff : off + (pblockSegAt bs off len).chunk +
            (j - (pblockSegAt bs off len).chunk) = off + j := by omega
        rw [hoff]
        congr 1
        exact propext (by omega)

theorem pblockReadBlocks_length (blocks : Blocks) (bs : ℕ+) (len off : ℕ) :
    (pblockReadBlocks blocks bs len off).length = len := by
  apply Nat.le_antisymm
  · rw [← List.getElem?_eq_none_iff, pblockReadBlocks_getElem?, if_neg (by omega)]
  · by_contra hlt
    have hnone := getElem?_eq_none (l := pblockReadBlocks blocks bs len off)
      (i := (pblockReadBlocks blocks bs len off).length) (by omega)
    rw [pblockReadBlocks_getElem?, if_pos (by omega)] at hnone
    cases hnone

theorem pread_pblockReadBlocks (blocks : Blocks) (bs : ℕ+) {len off i n : ℕ} (h : i + n ≤ len) :
    File.pread (pblockReadBlocks blocks bs len off) i n = pblockReadBlocks blocks bs n (off + i) := by
  apply ext_getElem?
  intro j
  rw [File.getElem?_pread, pblockReadBlocks_getElem?, pblockReadBlocks_getElem?]
  by_cases hj : j < n
  · rw [if_pos hj, if_pos hj, if_pos (by omega), Nat.add_assoc]
  · rw [if_neg hj, if_neg hj]

theorem blockByte_update (blocks : Blocks) (bs : ℕ+) (k i : ℕ) (file : Option Bytes) :
    blockByte (update blocks k file) bs i =
      if i / bs = k then (file.getD []).getD (i % bs) 0 else blockByte blocks bs i := by
  rw [blockByte, blockByte]
  by_cases h : i / bs = k
  · rw [if_pos h, h, update_self]
  · rw [if_neg h, update_of_ne h]

theorem blockByte_put {p : BlockPiece} (hp : p.boff + p.bytes.length ≤ bs) (i : ℕ) :
    blockByte (p.put blocks) bs i =
      if p.idx * bs + p.boff ≤ i ∧ i < p.idx * bs + p.boff + p.bytes.length then
        p.bytes.getD (i - (p.idx * bs + p.boff)) 0
      else blockByte blocks bs i := by
  have hdiv := Nat.div_add_mod' i bs
  have hmod := Nat.mod_lt i bs.pos
  rw [BlockPiece.put, blockByte_update]
  by_cases hidx : i / bs = p.idx
  · rw [if_pos hidx, Option.getD_some, File.getD_pwrite, blockByte, hidx]
    rw [hidx] at hdiv
    have hiff : (p.boff ≤ i % bs ∧ i % bs < p.boff + p.bytes.length) ↔
        (p.idx * bs + p.boff ≤ i ∧ i < p.idx * bs + p.boff + p.bytes.length) := by omega
    have hsub : i - (p.idx * bs + p.boff) = i % bs - p.boff := by omega
    rw [hsub]
    exact if_congr hiff rfl rfl
  · rw [if_neg hidx, if_neg]
    rintro ⟨hle, hlt⟩
    apply hidx
    apply Nat.div_eq_of_lt_le
    · omega
    · rw [Nat.succ_mul]
      omega

theorem blockPieces_range {data : Bytes} {off : ℕ} {p : BlockPiece}
    (hp : p ∈ blockPieces bs data off) :
    p.boff + p.bytes.length ≤ bs ∧ off ≤ p.idx * bs + p.boff ∧
      p.idx * bs + p.boff + p.bytes.length ≤ off + data.length := by
  induction hn : data.length using Nat.strong_induction_on generalizing data off with
  | _ n ih =>
    subst hn
    rw [blockPieces] at hp
    by_cases hlen : data.length = 0
    · rw [dif_pos hlen] at hp
      cases hp
    · have hpos := pblockSegAt_chunk_pos bs off hlen
      have hle := pblockSegAt_chunk_le bs off data.length
      have hstart : off / bs * bs + off % bs = off := Nat.div_add_mod' off bs
      have hmod := Nat.mod_lt off bs.pos
      rw [dif_neg hlen, mem_cons] at hp
      obtain rfl | htail := hp
      · simp only [pblockSegAt, length_take]
        omega
      · have hdrop : (data.drop (pblockSegAt bs off data.length).chunk).length =
            data.length - (pblockSegAt bs off data.length).chunk := length_drop
        obtain ⟨hroom, hlow, hhigh⟩ := ih _ (by omega) htail rfl
        exact ⟨hroom, by omega, by omega⟩

/-- The byte of a block after a write -/
theorem blockByte_write (blocks : Blocks) (bs : ℕ+) (data : Bytes) (off i : ℕ) :
    blockByte (pblockWriteBlocks blocks bs data off) bs i =
      if off ≤ i ∧ i < off + data.length then data.getD (i - off) 0
      else blockByte blocks bs i := by
  rw [pblockWriteBlocks]
  induction hn : data.length using Nat.strong_induction_on generalizing data off blocks with
  | _ n ih =>
    subst hn
    rw [blockPieces]
    by_cases hlen : data.length = 0
    · rw [dif_pos hlen, if_neg (by omega)]
      rfl
    · have hpos := pblockSegAt_chunk_pos bs off hlen
      have hle := pblockSegAt_chunk_le bs off data.length
      have hdrop : (data.drop (pblockSegAt bs off data.length).chunk).length =
          data.length - (pblockSegAt bs off data.length).chunk := length_drop
      have hstart : off / bs * bs + off % bs = off := Nat.div_add_mod' off bs
      have hroom : off % bs + (pblockSegAt bs off data.length).chunk ≤ bs := by
        have hmod := Nat.mod_lt off bs.pos
        simp only [pblockSegAt]
        omega
      rw [dif_neg hlen, foldl_cons, ih _ (by omega) _ _ _ rfl, hdrop,
        blockByte_put (by rw [length_take, Nat.min_eq_left hle]; exact hroom)]
      simp only [length_take, Nat.min_eq_left hle]
      have hseg : (pblockSegAt bs off data.length).idx * bs +
          (pblockSegAt bs off data.length).boff = off := hstart
      rw [hseg]
      by_cases hfirst : i < off + (pblockSegAt bs off data.length).chunk
      · -- the piece of this turn, or what stands before it
        rw [if_neg (by omega)]
        by_cases hin : off ≤ i
        · rw [if_pos ⟨hin, hfirst⟩, if_pos ⟨hin, by omega⟩, getD_eq_getElem?_getD,
            getElem?_take_of_lt (by omega), getD_eq_getElem?_getD]
        · rw [if_neg (by omega), if_neg (by omega)]
      · -- what the later turns write, or what stands behind them
        have hskip : (pblockSegAt bs off data.length).chunk +
            (i - (off + (pblockSegAt bs off data.length).chunk)) = i - off := by omega
        rw [getD_eq_getElem?_getD, getElem?_drop, hskip, ← getD_eq_getElem?_getD,
          if_neg (c := off ≤ i ∧ i < off + _) (by omega)]
        apply if_congr _ rfl rfl
        omega

theorem dropBlocks_apply (blocks : Blocks) (lo n i : ℕ) :
    dropBlocks blocks lo n i = if lo ≤ i ∧ i < lo + n then none else blocks i := by
  induction n generalizing lo blocks with
  | zero => rw [if_neg (by omega), dropBlocks, range'_zero, foldl_nil]
  | succ n ih =>
    rw [dropBlocks, range'_succ, foldl_cons, ← dropBlocks, ih]
    by_cases hi : i = lo
    · rw [if_neg (by omega), if_pos (by omega), hi, update_self]
    · rw [update_of_ne hi]
      apply if_congr _ rfl rfl
      omega

theorem blockByte_drop (blocks : Blocks) (bs : ℕ+) (lo n i : ℕ) :
    blockByte (dropBlocks blocks lo n) bs i =
      if lo ≤ i / bs ∧ i / bs < lo + n then 0 else blockByte blocks bs i := by
  rw [blockByte, dropBlocks_apply, blockByte]
  split <;> rfl

/-! ## Blobs as byte strings -/

/-- The block files hold `bytes`, and nothing but zeros behind them. -/
def Stripes (blocks : Blocks) (bs : ℕ+) (bytes : Bytes) : Prop :=
  ∀ i, blockByte blocks bs i = bytes.getD i 0

namespace Stripes

variable {bytes : Bytes}

theorem read (h : Stripes blocks bs bytes) {len off : ℕ} (hin : off + len ≤ bytes.length) :
    pblockReadBlocks blocks bs len off = File.pread bytes off len := by
  apply ext_getElem?
  intro j
  rw [pblockReadBlocks_getElem?, File.getElem?_pread]
  by_cases hj : j < len
  · rw [if_pos hj, if_pos hj, h, getD_eq_getElem?_getD, getElem?_eq_getElem (by omega)]
    rfl
  · rw [if_neg hj, if_neg hj]

theorem write (h : Stripes blocks bs bytes) (data : Bytes) (off : ℕ) :
    Stripes (pblockWriteBlocks blocks bs data off) bs (File.pwrite 0 bytes off data) := by
  intro i
  rw [blockByte_write, File.getD_pwrite, h]

end Stripes

theorem pblockLastBlock_spec (len : ℕ) (bs : ℕ+) :
    pblockLastBlock len bs * bs ≤ len ∧ len ≤ pblockLastBlock len bs * bs + bs := by
  rw [pblockLastBlock]
  split
  · omega
  · have hdiv := Nat.div_add_mod' (len - 1) bs
    have hmod := Nat.mod_lt (len - 1) bs.pos
    omega

theorem div_le_pblockLastBlock (bs : ℕ+) {len i : ℕ} (h : i < len) : i / bs ≤ pblockLastBlock len bs := by
  rw [pblockLastBlock, if_neg (by omega)]
  exact Nat.div_le_div_right (by omega)

/-- Truncated blocks are the stripes of the truncated bytes. -/
theorem Stripes.truncate {bytes : Bytes} (h : Stripes blocks bs bytes) (len : ℕ) :
    Stripes (pblockTruncateBlocks blocks bs bytes.length len) bs (File.ftruncate 0 bytes len) := by
  intro i
  obtain ⟨hlow, hhigh⟩ := pblockLastBlock_spec len bs
  have hdiv := Nat.div_add_mod' i bs
  have hmod := Nat.mod_lt i bs.pos
  rw [pblockTruncateBlocks, blockByte_drop, blockByte_update, File.getD_ftruncate, h]
  generalize pblockLastBlock len bs = keep at hlow hhigh
  obtain hlt | heq | hgt := Nat.lt_trichotomy (i / bs) keep
  · -- a block before the boundary is left alone
    have hle := Nat.mul_le_mul_right (bs : ℕ) (Nat.succ_le_of_lt hlt)
    rw [Nat.succ_mul] at hle
    rw [if_neg (by omega), if_neg (by omega), if_pos (by omega)]
  · rw [if_neg (by omega), if_pos heq, Option.getD_some, File.getD_ftruncate]
    rw [heq] at hdiv
    have hbyte : ((blocks keep).getD []).getD (i % bs) 0 = bytes.getD i 0 := by
      rw [← h i, blockByte, heq]
    rw [hbyte]
    apply if_congr _ rfl rfl
    omega
  · -- behind the boundary the blocks go, and there are none behind the old size
    have hle := Nat.mul_le_mul_right (bs : ℕ) (Nat.succ_le_of_lt hgt)
    rw [Nat.succ_mul] at hle
    rw [if_neg (c := i < len) (by omega)]
    by_cases hdrop : keep + 1 ≤ i / bs ∧ i / bs < keep + 1 + (pblockLastBlock bytes.length bs - keep)
    · rw [if_pos hdrop]
    · rw [if_neg hdrop, if_neg (by omega), getD_eq_getElem?_getD, getElem?_eq_none]
      · rfl
      · by_contra hin
        have hlast := div_le_pblockLastBlock bs (Nat.not_le.mp hin)
        omega

end BrixCache
