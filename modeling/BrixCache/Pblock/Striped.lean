import BrixCache.Pblock.Xform
import BrixCache.Core.Ascii

/-!
# An open object as a flat file

`pread`, `pwrite` and `ftruncate` of `sd_pblock_io.c` on one handle, over the blocks as
they are or through a transform, without the lab's faults and the per-block
checksums. Each read gives what it would of one flat file, but where a
transformed block was stored that the load then refuses.
-/

namespace BrixCache

open Function List

/-- What an export and an open fix for a handle: the transform, the block size, the quota and
the ranges that others have leased. -/
structure StripedConf : Type where
  zstd : Zstd
  xform : PblockXform
  bs : ℕ+
  quotaMax : ℕ
  /-- `pblock_locks_range_denied` -/
  denied : ℕ → ℕ → Bool

/-- A write of `n` bytes is not refused by the quota or a lease. -/
def StripedConf.admits (conf : StripedConf) (off n : ℕ) : Bool :=
  off + n ≤ conf.quotaMax && !conf.denied off n

/-- The block files of an open object, and its cached size. -/
structure StripedObj : Type where
  blocks : Blocks
  size : ℕ

/-- A new object has an empty block 0. -/
def StripedObj.created : StripedObj := ⟨update (fun _ => none) 0 (some []), 0⟩

/-- The calls on a striped file -/
inductive StripedCall : Type where
  | pwrite (off : ℕ) (data : Bytes)
  | ftruncate (len : ℕ)
  | pread (off len : ℕ)

namespace StripedObj

def readBlocks (conf : StripedConf) (obj : StripedObj) (len off : ℕ) : Except Errno Bytes :=
  if conf.xform.active then
    let got := pblockXformRead conf.zstd conf.xform conf.bs obj.blocks len off
    if len ≠ 0 ∧ got = [] then .error .eio else .ok got
  else .ok (pblockReadBlocks obj.blocks conf.bs len off)

/-- `sd_pblock_pread` -/
def pread (conf : StripedConf) (obj : StripedObj) (len off : ℕ) : Except Errno Bytes :=
  if obj.size ≤ off then .ok []
  else
    let len := min len (obj.size - off)
    if len = 0 then .ok [] else obj.readBlocks conf len off

def writeBlocks (conf : StripedConf) (obj : StripedObj) (data : Bytes) (off : ℕ) :
    Blocks × ℕ :=
  if conf.xform.active then pblockXformWrite conf.zstd conf.xform conf.bs obj.blocks data off
  else (pblockWriteBlocks obj.blocks conf.bs data off, data.length)

/-- `sd_pblock_pwrite` -/
def pwrite (conf : StripedConf) (obj : StripedObj) (data : Bytes) (off : ℕ) : StripedObj :=
  if data.length = 0 then obj
  else if conf.admits off data.length = false then obj
  else
    let written := obj.writeBlocks conf data off
    ⟨written.1, if 0 < written.2 then max obj.size (off + written.2) else obj.size⟩

/-- `sd_pblock_ftruncate` -/
def ftruncate (conf : StripedConf) (obj : StripedObj) (len : ℕ) : StripedObj :=
  if conf.xform.active then
    match pblockTruncateTransformed conf.zstd conf.xform conf.bs obj.blocks obj.size len with
    | none => obj
    | some blocks => ⟨blocks, len⟩
  else ⟨pblockTruncateBlocks obj.blocks conf.bs obj.size len, len⟩

def exec (conf : StripedConf) (obj : StripedObj) : StripedCall → StripedObj
  | .pwrite off data => obj.pwrite conf data off
  | .ftruncate len => obj.ftruncate conf len
  | .pread _ _ => obj

/-- What the reads of a sequence of calls give. -/
def answers (conf : StripedConf) : StripedObj → List StripedCall → List (Except Errno Bytes)
  | _, [] => []
  | obj, .pread off len :: calls => obj.pread conf len off :: answers conf obj calls
  | obj, c :: calls => answers conf (obj.exec conf c) calls

end StripedObj

/-! ## The flat file -/

/-- The call on one flat file. -/
def flatExec (conf : StripedConf) (bytes : Bytes) : StripedCall → Bytes
  | .pwrite off data => if conf.admits off data.length then File.pwrite 0 bytes off data else bytes
  | .ftruncate len => File.ftruncate 0 bytes len
  | .pread _ _ => bytes

/-- What the reads give there. -/
def flatAnswers (conf : StripedConf) : Bytes → List StripedCall → List Bytes
  | _, [] => []
  | bytes, .pread off len :: calls => File.pread bytes off len :: flatAnswers conf bytes calls
  | bytes, c :: calls => flatAnswers conf (flatExec conf bytes c) calls

/-! ## Calls whose blocks can be loaded again -/

/-- What a call stores of transformed blocks passes the tests of the load. -/
def StepPasses (conf : StripedConf) (obj : StripedObj) : StripedCall → Prop
  | .pwrite off data => conf.admits off data.length = true → conf.xform.active = true →
      ∀ p ∈ blockPieces conf.bs data off, PassesLoad conf.zstd conf.xform conf.bs p.idx
        (overlaid conf.zstd conf.xform conf.bs obj.blocks p)
  | .ftruncate len => conf.xform.active = true →
      let keep := pblockLastBlock len conf.bs
      PassesLoad conf.zstd conf.xform conf.bs keep
        (File.ftruncate 0 (xformLogical conf.zstd conf.xform conf.bs keep (obj.blocks keep))
          (len - keep * conf.bs))
  | .pread _ _ => True

def RunPasses (conf : StripedConf) : StripedObj → List StripedCall → Prop
  | _, [] => True
  | obj, c :: calls => StepPasses conf obj c ∧ RunPasses conf (obj.exec conf c) calls

/-- The blocks of the plain engine that an object's block files are, or are decoded to. -/
def StripedObj.content (conf : StripedConf) (obj : StripedObj) : Blocks :=
  if conf.xform.active then decoded conf.zstd conf.xform conf.bs obj.blocks else obj.blocks

/-- An object stands for a flat file. -/
structure Stands (conf : StripedConf) (obj : StripedObj) (bytes : Bytes) : Prop where
  size : obj.size = bytes.length
  loaded : conf.xform.active = true → Loaded conf.zstd conf.xform conf.bs obj.blocks
  stripes : Stripes (obj.content conf) conf.bs bytes

variable {conf : StripedConf} {obj : StripedObj} {bytes data : Bytes} {off len : ℕ}

theorem StripedObj.content_active (h : conf.xform.active = true) (obj : StripedObj) :
    obj.content conf = decoded conf.zstd conf.xform conf.bs obj.blocks := if_pos h

theorem StripedObj.content_plain (h : conf.xform.active = false) (obj : StripedObj) :
    obj.content conf = obj.blocks := if_neg (by simp [h])

namespace Stands

theorem created (conf : StripedConf) : Stands conf .created [] := by
  have hblock : ∀ k, StripedObj.created.blocks k = none ∨ StripedObj.created.blocks k = some [] := by
    intro k
    by_cases hk : k = 0
    · subst hk
      exact .inr rfl
    · exact .inl (by simp [StripedObj.created, hk])
  have hholds : ∀ k, BlockHolds conf.zstd conf.xform conf.bs k (StripedObj.created.blocks k) [] := by
    intro k
    obtain hk | hk := hblock k
    · rw [hk]
      exact .missing
    · rw [hk]
      exact .created
  refine ⟨rfl, fun _ k => ?_, fun i => ?_⟩
  · rw [(hholds k).logical]
    exact hholds k
  · have hempty : (StripedObj.created.content conf (i / conf.bs)).getD [] = [] := by
      cases hactive : conf.xform.active with
      | false =>
        rw [StripedObj.content_plain hactive]
        obtain hk | hk := hblock (i / conf.bs)
        · rw [hk, Option.getD_none]
        · rw [hk, Option.getD_some]
      | true => rw [StripedObj.content_active hactive, getD_decoded, (hholds _).logical]
    rw [blockByte, hempty]
    rfl

theorem pread (h : Stands conf obj bytes) (len off : ℕ) :
    obj.pread conf len off = .ok (File.pread bytes off len) := by
  rw [StripedObj.pread, h.size]
  by_cases heof : bytes.length ≤ off
  · rw [if_pos heof, File.pread, drop_eq_nil_of_le heof, take_nil]
  · rw [if_neg heof]
    by_cases hlen : min len (bytes.length - off) = 0
    · have hnil : File.pread bytes off len = [] := by
        rw [← File.pread_min, hlen, File.pread, take_zero]
      rw [hnil]
      simp [hlen]
    · have hread : pblockReadBlocks (obj.content conf) conf.bs (min len (bytes.length - off)) off =
          File.pread bytes off (min len (bytes.length - off)) := h.stripes.read (by omega)
      rw [File.pread_min] at hread
      simp only [hlen, if_false]
      rw [StripedObj.readBlocks]
      cases hactive : conf.xform.active with
      | false =>
        rw [StripedObj.content_plain hactive] at hread
        simp [hread]
      | true =>
        rw [StripedObj.content_active hactive, ← xformRead_decoded (h.loaded hactive)] at hread
        have hne : File.pread bytes off len ≠ [] := by
          intro hnil
          have hlength := congrArg length hnil
          rw [File.length_pread, length_nil] at hlength
          exact hlen hlength
        simp [hread, hne]

theorem pwrite (h : Stands conf obj bytes) (hz : conf.xform = .zstd → conf.zstd.Lawful)
    (hpass : StepPasses conf obj (.pwrite off data)) :
    Stands conf (obj.pwrite conf data off) (flatExec conf bytes (.pwrite off data)) := by
  rw [StripedObj.pwrite, flatExec]
  by_cases hlen : data.length = 0
  · rw [if_pos hlen, length_eq_zero_iff.mp hlen, File.pwrite_nil, ite_self]
    exact h
  · rw [if_neg hlen]
    cases hadmits : conf.admits off data.length with
    | false => exact h
    | true =>
      have hne : data ≠ [] := fun hnil => hlen (by rw [hnil, length_nil])
      have hsize : max obj.size (off + data.length) = (File.pwrite 0 bytes off data).length := by
        rw [File.length_pwrite 0 bytes off hne, h.size]
      have hstripes := h.stripes.write data off
      simp only [Bool.true_eq_false, if_false, if_true]
      rw [StripedObj.writeBlocks]
      cases hactive : conf.xform.active with
      | false =>
        rw [StripedObj.content_plain hactive] at hstripes
        simp only [Bool.false_eq_true, if_false, if_pos (Nat.pos_of_ne_zero hlen)]
        refine ⟨hsize, fun htrue => ?_, ?_⟩
        · rw [hactive] at htrue
          cases htrue
        · rwa [StripedObj.content_plain hactive]
      | true =>
        rw [StripedObj.content_active hactive] at hstripes
        obtain ⟨blocks', hwrite, hloaded, hdecoded⟩ :=
          xformWrite_decoded hz hactive (h.loaded hactive) (hpass hadmits hactive)
        simp only [hwrite, if_true, if_pos (Nat.pos_of_ne_zero hlen)]
        refine ⟨hsize, fun _ => hloaded, ?_⟩
        rw [StripedObj.content_active hactive, hdecoded]
        exact hstripes

theorem ftruncate (h : Stands conf obj bytes) (hz : conf.xform = .zstd → conf.zstd.Lawful)
    (hpass : StepPasses conf obj (.ftruncate len)) :
    Stands conf (obj.ftruncate conf len) (File.ftruncate 0 bytes len) := by
  have hstripes := h.stripes.truncate len
  have hsize : len = (File.ftruncate 0 bytes len).length := (File.length_ftruncate 0 _ _).symm
  rw [← h.size] at hstripes
  rw [StripedObj.ftruncate]
  cases hactive : conf.xform.active with
  | false =>
    rw [StripedObj.content_plain hactive] at hstripes
    rw [if_neg (by simp)]
    refine ⟨hsize, fun htrue => ?_, ?_⟩
    · rw [hactive] at htrue
      cases htrue
    · rwa [StripedObj.content_plain hactive]
  | true =>
    rw [StripedObj.content_active hactive] at hstripes
    obtain ⟨blocks', htruncate, hloaded, hdecoded⟩ :=
      truncateTransformed_decoded hz hactive (h.loaded hactive) (hpass hactive)
    rw [if_pos rfl, htruncate]
    refine ⟨hsize, fun _ => hloaded, ?_⟩
    rw [StripedObj.content_active hactive, hdecoded]
    exact hstripes

theorem exec (h : Stands conf obj bytes) (hz : conf.xform = .zstd → conf.zstd.Lawful)
    {c : StripedCall} (hpass : StepPasses conf obj c) :
    Stands conf (obj.exec conf c) (flatExec conf bytes c) := by
  cases c with
  | pwrite off data => exact h.pwrite hz hpass
  | ftruncate len => exact h.ftruncate hz hpass
  | pread off len => exact h

end Stands

/-- **Every read of a run** gives what it would of the flat file, where all that is stored of
transformed blocks can be loaded again. -/
theorem striped_refines_flat {conf : StripedConf} {obj : StripedObj} {bytes : Bytes}
    {calls : List StripedCall} (hz : conf.xform = .zstd → conf.zstd.Lawful)
    (hstands : Stands conf obj bytes) (hrun : RunPasses conf obj calls) :
    obj.answers conf calls = (flatAnswers conf bytes calls).map .ok := by
  induction calls generalizing obj bytes with
  | nil => rfl
  | cons c calls ih =>
    obtain ⟨hpass, hrest⟩ := hrun
    have hnext := ih (hstands.exec hz hpass) hrest
    cases c with
    | pwrite off data | ftruncate len => exact hnext
    | pread off len =>
      rw [StripedObj.answers, flatAnswers, map_cons, hstands.pread]
      exact congrArg _ hnext

/-! ## Transforms that leave room -/

/-- No block of the export is encoded to more than the load accepts. -/
def LeavesRoom (conf : StripedConf) : Prop :=
  conf.bs + pblockXformHdr + 512 < 2 ^ 32 ∧ ∀ (idx : ℕ) (c phys : Bytes),
    c.length ≤ conf.bs → xformEncode conf.zstd conf.xform idx c = some phys →
      phys.length ≤ conf.bs + pblockXformHdr + 512

theorem leavesRoom_crypt {key : Bytes} (hxf : conf.xform = .crypt key)
    (hbs : conf.bs + pblockXformHdr + 512 < 2 ^ 32) : LeavesRoom conf := by
  refine ⟨hbs, fun idx c phys hc hphys => ?_⟩
  rw [hxf, xformEncode] at hphys
  cases hphys
  rw [xformCryptXor, length_xformKeystream]
  omega

theorem LeavesRoom.passes (h : LeavesRoom conf) {idx : ℕ} {c : Bytes}
    (hc : c.length ≤ conf.bs) : PassesLoad conf.zstd conf.xform conf.bs idx c := by
  obtain ⟨hbs, hroom⟩ := h
  have hmod : (conf.bs : ℕ) % 2 ^ 32 = conf.bs := Nat.mod_eq_of_lt (by omega)
  rw [PassesLoad, hmod, Nat.mod_eq_of_lt hbs]
  exact ⟨hc, fun phys hphys => hroom idx c phys hc hphys⟩

theorem LeavesRoom.step (h : LeavesRoom conf) (hstands : Stands conf obj bytes) (c : StripedCall) :
    StepPasses conf obj c := by
  cases c with
  | pwrite off data =>
    intro _ hactive p hp
    obtain ⟨hroom, -, -⟩ := blockPieces_range hp
    apply h.passes
    rw [overlaid]
    by_cases hne : p.bytes = []
    · rw [hne, File.pwrite_nil]
      exact (hstands.loaded hactive p.idx).length_le
    · rw [File.length_pwrite 0 _ _ hne]
      exact Nat.max_le.mpr ⟨(hstands.loaded hactive p.idx).length_le, hroom⟩
  | ftruncate len =>
    intro _
    apply h.passes
    rw [File.length_ftruncate]
    have hspec := pblockLastBlock_spec len conf.bs
    omega
  | pread off len => trivial

theorem LeavesRoom.run (h : LeavesRoom conf) (hz : conf.xform = .zstd → conf.zstd.Lawful)
    (hstands : Stands conf obj bytes) (calls : List StripedCall) : RunPasses conf obj calls := by
  induction calls generalizing obj bytes with
  | nil => trivial
  | cons c calls ih => exact ⟨h.step hstands c, ih (hstands.exec hz (h.step hstands c))⟩

/-- A library that compresses nothing -/
def storeOnly : Zstd where
  compress bytes := bytes
  decompress room phys := if phys.length ≤ room then some phys else none

attribute [local instance] neZero_four

/-- Blocks of 4 bytes under a keystream -/
def cryptConf : StripedConf := ⟨storeOnly, .crypt [7], 4, 100, fun _ _ => false⟩

theorem striped_refines_flat_sample :
    StripedObj.answers cryptConf .created
        [.pwrite 1 [1, 2, 3, 4, 5, 6], .ftruncate 3, .ftruncate 9, .pread 0 20] =
      [.ok [0, 1, 2, 0, 0, 0, 0, 0, 0]] := by
  have hz : cryptConf.xform = .zstd → cryptConf.zstd.Lawful := by
    intro h
    cases h
  have hroom : LeavesRoom cryptConf := leavesRoom_crypt rfl (by decide)
  exact striped_refines_flat hz (Stands.created _) (hroom.run hz (Stands.created _) _)

/-- Blocks of 4 GiB under a keystream -/
def hugeConf : StripedConf := ⟨storeOnly, .crypt [], ⟨2 ^ 32, by decide⟩, 100, fun _ _ => false⟩

/-- A block of 4 GiB is refused as soon as it has a byte: its size is 0 as a `uint32_t`. -/
theorem striped_huge_block_refused :
    ¬∀ conf obj bytes calls, (conf.xform = .zstd → conf.zstd.Lawful) → Stands conf obj bytes →
      obj.answers conf calls = (flatAnswers conf bytes calls).map .ok := by
  intro hall
  have hz : hugeConf.xform = .zstd → hugeConf.zstd.Lawful := by
    intro h
    cases h
  have hrun := hall hugeConf .created [] [.pwrite 0 [1], .pread 0 1] hz (Stands.created _)
  have hseg : pblockSegAt hugeConf.bs 0 1 = ⟨0, 0, 1⟩ := rfl
  have hload : pblockXformBlockLoad hugeConf.zstd hugeConf.xform hugeConf.bs 0 (some []) =
      .ok (File.ftruncate 0 [] hugeConf.bs, 0) := rfl
  -- the one byte is stored, and is refused when it is loaded again
  obtain ⟨file, hstore, hrefused⟩ : ∃ file,
      pblockXformBlockStore hugeConf.zstd hugeConf.xform 0 (some [])
        (File.pwrite 0 (File.ftruncate 0 [] hugeConf.bs) 0 [1]) 1 = some file ∧
      pblockXformBlockLoad hugeConf.zstd hugeConf.xform hugeConf.bs 0 (some file) = .error .eio := by
    refine ⟨_, xformBlockStore_eq rfl, ?_⟩
    rw [xformBlockLoad_eq (by decide), if_pos (.inl (by decide))]
    rw [xformCryptXor, length_xformKeystream, length_take]
    exact Nat.lt_of_le_of_lt (Nat.min_le_left _ _) (by decide)
  have hwrite : StripedObj.created.pwrite hugeConf [1] 0 =
      ⟨update StripedObj.created.blocks 0 (some file), 1⟩ := by
    have hloop : pblockXformWrite hugeConf.zstd hugeConf.xform hugeConf.bs StripedObj.created.blocks
        [1] 0 = (update StripedObj.created.blocks 0 (some file), 1) := by
      have hblock : StripedObj.created.blocks 0 = some [] := rfl
      have htake : take 1 [(1 : UInt8)] = [1] := rfl
      have hnl : max ((0 + 1) % 2 ^ 32) 0 = 1 := rfl
      rw [pblockXformWrite, dif_neg (by simp)]
      simp only [length_singleton, hseg, hblock, hload]
      rw [htake, hnl, hstore]
      simp [pblockXformWrite]
    rw [StripedObj.pwrite, if_neg (by simp), if_neg (by decide), StripedObj.writeBlocks,
      if_pos (by decide), hloop]
    rfl
  have hread : (StripedObj.created.pwrite hugeConf [1] 0).pread hugeConf 1 0 = .error .eio := by
    have hloop : pblockXformRead hugeConf.zstd hugeConf.xform hugeConf.bs
        (update StripedObj.created.blocks 0 (some file)) 1 0 = [] := by
      rw [pblockXformRead, dif_neg (by simp)]
      simp only [hseg, update_self, hrefused]
    have hactive : hugeConf.xform.active = true := rfl
    rw [hwrite, StripedObj.pread, if_neg (by simp)]
    simp [StripedObj.readBlocks, hactive, hloop]
  have hanswers : [(StripedObj.created.pwrite hugeConf [1] 0).pread hugeConf 1 0] = [.ok [1]] := hrun
  rw [hread] at hanswers
  cases hanswers

end BrixCache
