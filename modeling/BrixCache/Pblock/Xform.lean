import BrixCache.Lib.Wire
import BrixCache.Pblock.Blocks
import BrixCache.Core.Ascii

/-!
# Transformed blocks

`pblock_xform.c`, and the loops of `pblock_store.c` and `sd_pblock_io.c` that go through
it: a block file is a header of two lengths and what became of the bytes of the block. A
block is loaded whole, written over and stored again. What it is decoded to is a block
of the plain engine, and each loop does to it what the plain loop does, as long as
the blocks that are stored pass the tests on their header when they are loaded again.
-/

namespace BrixCache

open List

/-- What a block goes through on its way to the disk -/
inductive PblockXform : Type where
  /-- `PBLOCK_XFORM_NONE` -/
  | plain
  | crypt (key : Bytes)
  | zstd
  deriving DecidableEq

/-- `pblock_xform_active` -/
def PblockXform.active : PblockXform → Bool
  | plain => false
  | _ => true

/-- `ZSTD_compress` with room for `ZSTD_compressBound`, and `ZSTD_decompress` with room for so
many bytes -/
structure Zstd : Type where
  compress : Bytes → Bytes
  decompress : ℕ → Bytes → Option Bytes

/-- What was compressed is there again where there is room for it. -/
def Zstd.Lawful (z : Zstd) : Prop :=
  ∀ bytes, z.decompress bytes.length (z.compress bytes) = some bytes

/-! ## One block -/

/-- The seed of `xform_crypt_xor` -/
def xformSeed (key : Bytes) (idx : ℕ) : UInt64 :=
  key.foldl (fun seed k => (seed ^^^ k.toUInt64) * 1099511628211)
    (1469598103934665603 ^^^ UInt64.ofNat idx * 0x9E3779B97F4A7C15)

/-- The loop of `xform_crypt_xor` -/
def xformKeystream : UInt64 → Bytes → Bytes
  | _, [] => []
  | seed, b :: p =>
    let seed := seed * 6364136223846793005 + 1442695040888963407
    (b ^^^ (seed >>> 33).toUInt8) :: xformKeystream seed p

def xformCryptXor (key : Bytes) (idx : ℕ) (p : Bytes) : Bytes :=
  xformKeystream (xformSeed key idx) p

/-- The stored form of a block. -/
def xformEncode (z : Zstd) (xf : PblockXform) (idx : ℕ) (logical : Bytes) :
    Option Bytes :=
  match xf with
  | .crypt key => some (xformCryptXor key idx logical)
  | .zstd => some (z.compress logical)
  | .plain => none

/-- The logical bytes of a stored block. -/
def xformDecode (z : Zstd) (xf : PblockXform) (idx : ℕ) (phys : Bytes) (llen : ℕ) :
    Option Bytes :=
  match xf with
  | .crypt key => if phys.length ≠ llen then none else some (xformCryptXor key idx phys)
  | .zstd => (z.decompress llen phys).bind fun out => if out.length ≠ llen then none else some out
  | .plain => none

def pblockXformHdr : ℕ := 8

/-- `pblock_xform_block_load`: a block of `bs` bytes, and how many are its own. The comparisons
are made with `uint32_t`. -/
def pblockXformBlockLoad (z : Zstd) (xf : PblockXform) (bs : ℕ+) (idx : ℕ)
    (file : Option Bytes) : Except Errno (Bytes × ℕ) :=
  match file with
  | none => .ok (File.ftruncate 0 [] bs, 0)
  | some file =>
    let hdr := File.pread file 0 pblockXformHdr
    if hdr.length = 0 then .ok (File.ftruncate 0 [] bs, 0)
    else if hdr.length ≠ pblockXformHdr then .error .eio
    else
      let llen := leNat (hdr.take 4)
      let plen := leNat (hdr.drop 4)
      if bs % 2 ^ 32 < llen ∨ (bs % 2 ^ 32 + pblockXformHdr + 512) % 2 ^ 32 < plen then .error .eio
      else
        let phys := File.pread file pblockXformHdr plen
        if phys.length ≠ plen then .error .eio
        else
          match xformDecode z xf idx phys llen with
          | none => .error .eio
          | some out => .ok (File.ftruncate 0 out bs, llen)

/-- `pblock_xform_block_store`, of the first `llen` bytes -/
def pblockXformBlockStore (z : Zstd) (xf : PblockXform) (idx : ℕ) (file : Option Bytes)
    (logical : Bytes) (llen : ℕ) : Option Bytes :=
  match xformEncode z xf idx (logical.take llen) with
  | none => none
  | some out =>
    let hdr := leBytes 4 llen ++ leBytes 4 out.length
    some (File.ftruncate 0 (File.pwrite 0 (File.pwrite 0 (file.getD []) 0 hdr) pblockXformHdr out)
      (pblockXformHdr + out.length))

/-! ## The loops -/

/-- `pblock_xform_write`: the blocks, and the bytes that got through. -/
def pblockXformWrite (z : Zstd) (xf : PblockXform) (bs : ℕ+) (blocks : Blocks) (data : Bytes)
    (off : ℕ) : Blocks × ℕ :=
  if h : data.length = 0 then (blocks, 0)
  else
    have := pblockSegAt_chunk_pos bs off h
    let sg := pblockSegAt bs off data.length
    match pblockXformBlockLoad z xf bs sg.idx (blocks sg.idx) with
    | .error _ => (blocks, 0)
    | .ok (scratch, llen) =>
      let scratch := File.pwrite 0 scratch sg.boff (data.take sg.chunk)
      let nl := max ((sg.boff + sg.chunk) % 2 ^ 32) llen
      match pblockXformBlockStore z xf sg.idx (blocks sg.idx) scratch nl with
      | none => (blocks, 0)
      | some file =>
        let rest := pblockXformWrite z xf bs (Function.update blocks sg.idx (some file))
          (data.drop sg.chunk) (off + sg.chunk)
        (rest.1, sg.chunk + rest.2)
  termination_by data.length

/-- `pblock_xform_read`: the bytes that got through. -/
def pblockXformRead (z : Zstd) (xf : PblockXform) (bs : ℕ+) (blocks : Blocks) (len off : ℕ) :
    Bytes :=
  if h : len = 0 then []
  else
    have := pblockSegAt_chunk_pos bs off h
    let sg := pblockSegAt bs off len
    match pblockXformBlockLoad z xf bs sg.idx (blocks sg.idx) with
    | .error _ => []
    | .ok (scratch, _) =>
      File.pread scratch sg.boff sg.chunk ++
        pblockXformRead z xf bs blocks (len - sg.chunk) (off + sg.chunk)
  termination_by len

/-- `pblock_truncate_transformed`, of an object of `size` bytes; none where it fails. -/
def pblockTruncateTransformed (z : Zstd) (xf : PblockXform) (bs : ℕ+) (blocks : Blocks)
    (size len : ℕ) : Option Blocks :=
  let keep := pblockLastBlock len bs
  let boundary := len - keep * bs
  match pblockXformBlockLoad z xf bs keep (blocks keep) with
  | .error _ => none
  | .ok (scratch, _) =>
    match pblockXformBlockStore z xf keep (blocks keep) scratch (boundary % 2 ^ 32) with
    | none => none
    | some file =>
      some (dropBlocks (Function.update blocks keep (some file)) (keep + 1)
        (pblockLastBlock size bs - keep))

/-! ## Decoding what was encoded -/

variable {z : Zstd} {xf : PblockXform} {bs : ℕ+} {idx : ℕ} {blocks : Blocks} {data c : Bytes}
  {off len : ℕ}

theorem length_xformKeystream (seed : UInt64) (p : Bytes) :
    (xformKeystream seed p).length = p.length := by
  induction p generalizing seed with
  | nil => rfl
  | cons b p ih => rw [xformKeystream, length_cons, length_cons, ih]

theorem xformKeystream_xformKeystream (seed : UInt64) (p : Bytes) :
    xformKeystream seed (xformKeystream seed p) = p := by
  induction p generalizing seed with
  | nil => rfl
  | cons b p ih =>
    rw [xformKeystream, xformKeystream, ih, UInt8.xor_assoc, UInt8.xor_self, UInt8.xor_zero]

variable {phys : Bytes} {file : Option Bytes} {llen : ℕ} {p : BlockPiece}

theorem xformDecode_xformEncode (hz : xf = .zstd → z.Lawful)
    (h : xformEncode z xf idx c = some phys) : xformDecode z xf idx phys c.length = some c := by
  cases xf with
  | plain => cases h
  | crypt key =>
    cases h
    rw [xformDecode, if_neg (by simp [xformCryptXor, length_xformKeystream]), xformCryptXor,
      xformCryptXor, xformKeystream_xformKeystream]
  | zstd =>
    cases h
    simp [xformDecode, hz rfl c]

/-- The bytes of a block pass the tests that `pblock_xform_block_load` makes of the header they
are stored with. -/
def PassesLoad (z : Zstd) (xf : PblockXform) (bs : ℕ+) (idx : ℕ) (c : Bytes) : Prop :=
  c.length ≤ bs % 2 ^ 32 ∧ ∀ phys, xformEncode z xf idx c = some phys →
    phys.length ≤ (bs % 2 ^ 32 + pblockXformHdr + 512) % 2 ^ 32

/-- The block file is loaded as these bytes of the block. -/
structure BlockHolds (z : Zstd) (xf : PblockXform) (bs : ℕ+) (idx : ℕ) (file : Option Bytes)
    (c : Bytes) : Prop where
  length_le : c.length ≤ bs
  load : pblockXformBlockLoad z xf bs idx file = .ok (File.ftruncate 0 c bs, c.length)

theorem BlockHolds.missing : BlockHolds z xf bs idx none [] := ⟨Nat.zero_le _, rfl⟩

theorem BlockHolds.created : BlockHolds z xf bs idx (some []) [] := ⟨Nat.zero_le _, rfl⟩

theorem xformBlockStore_eq {logical : Bytes}
    (h : xformEncode z xf idx (logical.take llen) = some phys) :
    pblockXformBlockStore z xf idx file logical llen =
      some (leBytes 4 llen ++ leBytes 4 phys.length ++ phys) := by
  have hhdr : pblockXformHdr = 0 + (leBytes 4 llen ++ leBytes 4 phys.length).length := by
    simp [pblockXformHdr]
  have hlen : pblockXformHdr + phys.length =
      (leBytes 4 llen ++ leBytes 4 phys.length ++ phys).length := by
    rw [length_append, length_append, leBytes_length, leBytes_length]
    rfl
  rw [pblockXformBlockStore, h]
  simp only
  rw [hlen, hhdr, File.pwrite_append, File.ftruncate_pwrite_zero]

theorem xformBlockLoad_eq (hllen : llen < 2 ^ 32) (hplen : phys.length < 2 ^ 32) :
    pblockXformBlockLoad z xf bs idx (some (leBytes 4 llen ++ leBytes 4 phys.length ++ phys)) =
      if bs % 2 ^ 32 < llen ∨ (bs % 2 ^ 32 + pblockXformHdr + 512) % 2 ^ 32 < phys.length then
        .error .eio
      else
        match xformDecode z xf idx phys llen with
        | none => .error .eio
        | some out => .ok (File.ftruncate 0 out bs, llen) := by
  have hhdr : File.pread (leBytes 4 llen ++ leBytes 4 phys.length ++ phys) 0 pblockXformHdr =
      leBytes 4 llen ++ leBytes 4 phys.length := by
    rw [File.pread, drop_zero]
    exact take_left' (by simp [pblockXformHdr])
  have hphys : File.pread (leBytes 4 llen ++ leBytes 4 phys.length ++ phys) pblockXformHdr
      phys.length = phys := by
    rw [File.pread, drop_left' (by simp [pblockXformHdr]), take_length]
  have hl : leNat ((leBytes 4 llen ++ leBytes 4 phys.length).take 4) = llen := by
    rw [take_left' (by simp)]
    exact leNat_leBytes_of_lt hllen
  have hp : leNat ((leBytes 4 llen ++ leBytes 4 phys.length).drop 4) = phys.length := by
    rw [drop_left' (by simp)]
    exact leNat_leBytes_of_lt hplen
  have hlen : (leBytes 4 llen ++ leBytes 4 phys.length).length = pblockXformHdr := by
    simp [pblockXformHdr]
  have hne : pblockXformHdr ≠ 0 := by decide
  rw [pblockXformBlockLoad]
  simp only [hhdr, hl, hp, hphys, hlen, hne, if_false, ne_eq, not_true_eq_false]

theorem BlockHolds.store (hz : xf = .zstd → z.Lawful) (hactive : xf.active = true)
    (hpass : PassesLoad z xf bs idx c) {logical : Bytes} (htake : logical.take llen = c)
    (hlen : c.length = llen) :
    ∃ f, pblockXformBlockStore z xf idx file logical llen = some f ∧
      BlockHolds z xf bs idx (some f) c := by
  obtain ⟨phys, hphys⟩ : ∃ phys, xformEncode z xf idx c = some phys := by
    cases xf with
    | plain => cases hactive
    | crypt key | zstd => exact ⟨_, rfl⟩
  obtain ⟨hsize, hroom⟩ := hpass
  have hroom := hroom phys hphys
  have hmod : (bs : ℕ) % 2 ^ 32 < 2 ^ 32 := Nat.mod_lt _ (by omega)
  have hmod' : ((bs : ℕ) % 2 ^ 32 + pblockXformHdr + 512) % 2 ^ 32 < 2 ^ 32 := Nat.mod_lt _ (by omega)
  refine ⟨_, xformBlockStore_eq (by rw [htake]; exact hphys), ?_, ?_⟩
  · exact Nat.le_trans hsize (Nat.mod_le _ _)
  · rw [xformBlockLoad_eq (by omega) (by omega), if_neg (by omega), ← hlen,
      xformDecode_xformEncode hz hphys]

/-! ## What the blocks are decoded to -/

/-- The bytes of its block that a block file is decoded to. -/
def xformLogical (z : Zstd) (xf : PblockXform) (bs : ℕ+) (idx : ℕ) (file : Option Bytes) :
    Bytes :=
  match pblockXformBlockLoad z xf bs idx file with
  | .error _ => []
  | .ok (scratch, llen) => scratch.take llen

/-- The blocks of the plain engine that are encoded in the block files. -/
def decoded (z : Zstd) (xf : PblockXform) (bs : ℕ+) (blocks : Blocks) : Blocks :=
  fun k => (blocks k).map fun file => xformLogical z xf bs k (some file)

/-- Every block can be loaded. -/
def Loaded (z : Zstd) (xf : PblockXform) (bs : ℕ+) (blocks : Blocks) : Prop :=
  ∀ k, BlockHolds z xf bs k (blocks k) (xformLogical z xf bs k (blocks k))

theorem BlockHolds.logical (h : BlockHolds z xf bs idx file c) :
    xformLogical z xf bs idx file = c := by
  rw [xformLogical, h.load]
  simp only
  rw [File.ftruncate, take_append_of_le_length, take_take, Nat.min_eq_left h.length_le,
    take_length]
  rw [length_take, Nat.min_eq_right h.length_le]

theorem Loaded.update (h : Loaded z xf bs blocks) {k : ℕ} {file : Bytes}
    (hfile : BlockHolds z xf bs k (some file) c) :
    Loaded z xf bs (Function.update blocks k (some file)) := by
  intro j
  by_cases hj : j = k
  · subst hj
    rw [Function.update_self, hfile.logical]
    exact hfile
  · rw [Function.update_of_ne hj]
    exact h j

theorem getD_decoded (z : Zstd) (xf : PblockXform) (bs : ℕ+) (blocks : Blocks) (k : ℕ) :
    (decoded z xf bs blocks k).getD [] = xformLogical z xf bs k (blocks k) := by
  rw [decoded]
  cases blocks k with
  | none => rw [BlockHolds.missing.logical, Option.map_none, Option.getD_none]
  | some file => rw [Option.map_some, Option.getD_some]

theorem decoded_update (blocks : Blocks) {k : ℕ} {file : Bytes}
    (hfile : BlockHolds z xf bs k (some file) c) :
    decoded z xf bs (Function.update blocks k (some file)) =
      Function.update (decoded z xf bs blocks) k (some c) := by
  funext j
  by_cases hj : j = k
  · subst hj
    rw [decoded, Function.update_self, Function.update_self, Option.map_some, hfile.logical]
  · rw [decoded, Function.update_of_ne hj, Function.update_of_ne hj]
    rfl

theorem take_pwrite_ftruncate {n boff : ℕ} {piece : Bytes} (hc : c.length ≤ n)
    (hne : piece ≠ []) (hroom : boff + piece.length ≤ n) :
    (File.pwrite 0 (File.ftruncate 0 c n) boff piece).take (File.pwrite 0 c boff piece).length =
      File.pwrite 0 c boff piece := by
  have hlen := File.length_pwrite 0 c boff hne
  have hlen' := File.length_pwrite 0 (File.ftruncate 0 c n) boff hne
  rw [File.length_ftruncate] at hlen'
  refine ext_getElem (by rw [length_take]; omega) ?_
  intro i h₁ h₂
  have heq : (File.pwrite 0 (File.ftruncate 0 c n) boff piece).getD i 0 =
      (File.pwrite 0 c boff piece).getD i 0 := by
    rw [File.getD_pwrite, File.getD_pwrite, File.getD_ftruncate]
    by_cases hin : i < n
    · rw [if_pos hin]
    · omega
  rw [getElem_take]
  rwa [getD_eq_getElem _ _ (by omega), getD_eq_getElem _ _ h₂] at heq

theorem take_ftruncate {m n : ℕ} (h : m ≤ n) :
    (File.ftruncate 0 c n).take m = File.ftruncate 0 c m := by
  apply ext_getElem?
  intro i
  by_cases hi : i < m
  · rw [getElem?_take_of_lt hi, File.getElem?_ftruncate 0 _ hi,
      File.getElem?_ftruncate 0 _ (Nat.lt_of_lt_of_le hi h)]
  · rw [getElem?_eq_none (by rw [length_take]; omega),
      getElem?_eq_none (by rw [File.length_ftruncate]; omega)]

theorem decoded_dropBlocks (blocks : Blocks) (lo n : ℕ) :
    decoded z xf bs (dropBlocks blocks lo n) = dropBlocks (decoded z xf bs blocks) lo n := by
  funext k
  rw [decoded, dropBlocks_apply, dropBlocks_apply]
  split <;> rfl

theorem Loaded.dropBlocks (h : Loaded z xf bs blocks) (lo n : ℕ) :
    Loaded z xf bs (dropBlocks blocks lo n) := by
  intro k
  rw [dropBlocks_apply]
  split
  · exact BlockHolds.missing.logical ▸ .missing
  · exact h k

theorem le_idx_of_mem_blockPieces (hp : p ∈ blockPieces bs data off) :
    off / bs ≤ p.idx := by
  induction hn : data.length using Nat.strong_induction_on generalizing data off with
  | _ n ih =>
    subst hn
    rw [blockPieces] at hp
    by_cases hlen : data.length = 0
    · rw [dif_pos hlen] at hp
      cases hp
    · have hpos := pblockSegAt_chunk_pos bs off hlen
      have hle := pblockSegAt_chunk_le bs off data.length
      rw [dif_neg hlen, mem_cons] at hp
      obtain rfl | htail := hp
      · exact Nat.le_refl _
      · have hrest := ih _ (by rw [length_drop]; omega) htail rfl
        exact Nat.le_trans (Nat.div_le_div_right (Nat.le_add_right _ _)) hrest

theorem lt_idx_of_mem_blockPieces
    (hp : p ∈ blockPieces bs (data.drop (pblockSegAt bs off data.length).chunk)
      (off + (pblockSegAt bs off data.length).chunk)) : off / bs < p.idx := by
  have hle := le_idx_of_mem_blockPieces hp
  by_cases hall : data.length ≤ bs - off % bs
  · -- the first piece is the last
    have hnil : data.drop (pblockSegAt bs off data.length).chunk = [] :=
      drop_eq_nil_of_le (by simp only [pblockSegAt]; omega)
    rw [hnil, blockPieces] at hp
    cases hp
  · have hmod := Nat.mod_lt off bs.pos
    have hdiv := Nat.div_add_mod' off bs
    have hend : off + (pblockSegAt bs off data.length).chunk = (off / bs + 1) * bs := by
      simp only [pblockSegAt]
      rw [Nat.succ_mul]
      omega
    rw [hend, Nat.mul_div_cancel _ bs.pos] at hle
    exact hle

/-! ## The loops on what the blocks are decoded to -/

/-- The bytes that a write leaves in the block of a piece. -/
def overlaid (z : Zstd) (xf : PblockXform) (bs : ℕ+) (blocks : Blocks) (p : BlockPiece) :
    Bytes :=
  File.pwrite 0 (xformLogical z xf bs p.idx (blocks p.idx)) p.boff p.bytes

theorem put_decoded (blocks : Blocks) (p : BlockPiece) : p.put (decoded z xf bs blocks) =
    Function.update (decoded z xf bs blocks) p.idx (some (overlaid z xf bs blocks p)) := by
  rw [BlockPiece.put, getD_decoded, overlaid]

theorem xformSegment_decoded (hz : xf = .zstd → z.Lawful) (hactive : xf.active = true)
    (h : Loaded z xf bs blocks) (hne : p.bytes ≠ [])
    (hroom : p.boff + p.bytes.length ≤ bs)
    (hpass : PassesLoad z xf bs p.idx (overlaid z xf bs blocks p)) :
    ∃ scratch llen file, pblockXformBlockLoad z xf bs p.idx (blocks p.idx) = .ok (scratch, llen) ∧
      pblockXformBlockStore z xf p.idx (blocks p.idx) (File.pwrite 0 scratch p.boff p.bytes)
        (max ((p.boff + p.bytes.length) % 2 ^ 32) llen) = some file ∧
      BlockHolds z xf bs p.idx (some file) (overlaid z xf bs blocks p) := by
  have hlen := File.length_pwrite 0 (xformLogical z xf bs p.idx (blocks p.idx)) p.boff hne
  have hmod : (bs : ℕ) % 2 ^ 32 < 2 ^ 32 := Nat.mod_lt _ (by omega)
  have hsize := hpass.1
  rw [overlaid] at hsize
  have hsmall : (p.boff + p.bytes.length) % 2 ^ 32 = p.boff + p.bytes.length :=
    Nat.mod_eq_of_lt (by omega)
  have hlen' : (overlaid z xf bs blocks p).length =
      max ((p.boff + p.bytes.length) % 2 ^ 32) (xformLogical z xf bs p.idx (blocks p.idx)).length := by
    rw [hsmall, overlaid, hlen, Nat.max_comm]
  obtain ⟨file, hstore, hholds⟩ := BlockHolds.store hz hactive hpass
    (by rw [← hlen']; exact take_pwrite_ftruncate (h p.idx).length_le hne hroom) hlen'
  exact ⟨_, _, file, (h p.idx).load, hstore, hholds⟩

/-- A write of transformed blocks, decoded, is a plain write. -/
theorem xformWrite_decoded (hz : xf = .zstd → z.Lawful) (hactive : xf.active = true)
    (h : Loaded z xf bs blocks)
    (hpass : ∀ p ∈ blockPieces bs data off, PassesLoad z xf bs p.idx (overlaid z xf bs blocks p)) :
    ∃ blocks', pblockXformWrite z xf bs blocks data off = (blocks', data.length) ∧
      Loaded z xf bs blocks' ∧
      decoded z xf bs blocks' = pblockWriteBlocks (decoded z xf bs blocks) bs data off := by
  induction hn : data.length using Nat.strong_induction_on generalizing data off blocks with
  | _ n ih =>
    subst hn
    rw [pblockWriteBlocks]
    rw [blockPieces] at hpass ⊢
    rw [pblockXformWrite]
    by_cases hlen : data.length = 0
    · rw [dif_pos hlen, dif_pos hlen, hlen]
      exact ⟨blocks, rfl, h, rfl⟩
    · have hpos := pblockSegAt_chunk_pos bs off hlen
      have hle := pblockSegAt_chunk_le bs off data.length
      have hmod := Nat.mod_lt off bs.pos
      rw [dif_neg hlen] at hpass ⊢
      rw [dif_neg hlen, foldl_cons]
      have hfirst : (data.take (pblockSegAt bs off data.length).chunk).length =
          (pblockSegAt bs off data.length).chunk := by
        rw [length_take]
        omega
      have hroom : (pblockSegAt bs off data.length).boff +
          (data.take (pblockSegAt bs off data.length).chunk).length ≤ bs := by
        rw [hfirst]
        simp only [pblockSegAt]
        omega
      have hne : data.take (pblockSegAt bs off data.length).chunk ≠ [] := by
        intro hnil
        rw [hnil, length_nil] at hfirst
        omega
      obtain ⟨scratch, llen, file, hload, hstore, hholds⟩ :=
        xformSegment_decoded (p := ⟨_, _, _⟩) hz hactive h hne hroom (hpass _ mem_cons_self)
      simp only [hfirst] at hload hstore hholds
      simp only [hload, hstore]
      -- the later pieces are of later blocks, and find them as they were
      have hlater : ∀ p ∈ blockPieces bs (data.drop (pblockSegAt bs off data.length).chunk)
          (off + (pblockSegAt bs off data.length).chunk), PassesLoad z xf bs p.idx
            (overlaid z xf bs (Function.update blocks (pblockSegAt bs off data.length).idx (some file))
              p) := by
        intro p hp
        have hidx : p.idx ≠ (pblockSegAt bs off data.length).idx :=
          Nat.ne_of_gt (lt_idx_of_mem_blockPieces hp)
        rw [overlaid, Function.update_of_ne hidx]
        exact hpass p (mem_cons_of_mem _ hp)
      obtain ⟨blocks', hwrite, hloaded, hdecoded⟩ :=
        ih _ (by rw [length_drop]; omega) (h.update hholds) hlater rfl
      refine ⟨blocks', ?_, hloaded, ?_⟩
      · rw [hwrite, length_drop]
        simp only [Prod.mk.injEq, true_and]
        omega
      · rw [hdecoded, decoded_update blocks hholds, pblockWriteBlocks, put_decoded]

theorem xformRead_decoded (h : Loaded z xf bs blocks) (len off : ℕ) :
    pblockXformRead z xf bs blocks len off = pblockReadBlocks (decoded z xf bs blocks) bs len off := by
  induction len using Nat.strong_induction_on generalizing off with
  | _ len ih =>
    rw [pblockXformRead, pblockReadBlocks]
    by_cases hlen : len = 0
    · rw [dif_pos hlen, dif_pos hlen]
    · have hpos := pblockSegAt_chunk_pos bs off hlen
      have hmod := Nat.mod_lt off bs.pos
      rw [dif_neg hlen, dif_neg hlen]
      simp only [(h _).load]
      rw [ih _ (by omega)]
      congr 1
      apply ext_getElem?
      intro j
      by_cases hj : j < (pblockSegAt bs off len).chunk
      · have hroom : (pblockSegAt bs off len).boff + j < bs := by
          simp only [pblockSegAt] at hj ⊢
          omega
        rw [readSeg_getElem? _ _ hj, getD_decoded, File.getElem?_pread, if_pos hj,
          File.getElem?_ftruncate 0 _ hroom]
        rfl
      · rw [File.getElem?_pread, if_neg hj, getElem?_eq_none (by rw [readSeg_length]; omega)]

theorem truncateTransformed_decoded (hz : xf = .zstd → z.Lawful) (hactive : xf.active = true)
    (h : Loaded z xf bs blocks) {size : ℕ}
    (hpass : PassesLoad z xf bs (pblockLastBlock len bs)
      (File.ftruncate 0 (xformLogical z xf bs (pblockLastBlock len bs) (blocks (pblockLastBlock len bs)))
        (len - pblockLastBlock len bs * bs))) :
    ∃ blocks', pblockTruncateTransformed z xf bs blocks size len = some blocks' ∧
      Loaded z xf bs blocks' ∧
      decoded z xf bs blocks' = pblockTruncateBlocks (decoded z xf bs blocks) bs size len := by
  obtain ⟨hlow, hhigh⟩ := pblockLastBlock_spec len bs
  rw [pblockTruncateTransformed, pblockTruncateBlocks, getD_decoded]
  generalize pblockLastBlock len bs = keep at *
  have hsize := hpass.1
  rw [File.length_ftruncate] at hsize
  have hmod : (bs : ℕ) % 2 ^ 32 < 2 ^ 32 := Nat.mod_lt _ (by omega)
  have hsmall : (len - keep * bs) % 2 ^ 32 = len - keep * bs := Nat.mod_eq_of_lt (by omega)
  have hstored : ∃ file, pblockXformBlockStore z xf keep (blocks keep)
      (File.ftruncate 0 (xformLogical z xf bs keep (blocks keep)) bs) (len - keep * bs) = some file ∧
        BlockHolds z xf bs keep (some file)
          (File.ftruncate 0 (xformLogical z xf bs keep (blocks keep)) (len - keep * bs)) :=
    BlockHolds.store hz hactive hpass (take_ftruncate (by omega)) (File.length_ftruncate 0 _ _)
  obtain ⟨file, hstore, hholds⟩ := hstored
  simp only [(h _).load, hsmall, hstore]
  refine ⟨_, rfl, (h.update hholds).dropBlocks _ _, ?_⟩
  rw [decoded_dropBlocks, decoded_update blocks hholds]

end BrixCache
