import BrixCache.Cas.PackFormat
import BrixCache.Lib.Mru
import BrixCache.Pblock.Blocks
import BrixCache.Lib.Run
import BrixCache.Core.Ascii

/-!
# The small-blob arena of pblock

`pblock_pack.c` on an export whose arena is armed: a committed blob is taken from
its block files into one record of a segment file, with a row of the catalog's
`pack` table to find it, and taken back before it is written. Files and tables are
the state, and each call is a `Proc`: every change of a file or of a row is a step
after which it may be stopped, and what a step meets (a failing `pwrite`, a failing
`DELETE`) comes with the call.
-/

namespace BrixCache

open Function

/-- `blob_id`, the key of its records. -/
abbrev BlobId : Type := Bytes

/-- Where a packed record is -/
structure PblockPackLoc : Type where
  seg : ℕ
  /-- record start inside the segment -/
  off : ℕ
  /-- data length -/
  len : ℕ
  deriving DecidableEq

/-- The block files, the `pack` table and the segment files. -/
structure PblockStore : Type where
  blocks : BlobId → Blocks
  pack : List (BlobId × PblockPackLoc)
  segs : List (ℕ × Bytes)

namespace PblockStore

/-- `INSERT OR REPLACE INTO pack` -/
def putRow (st : PblockStore) (blob : BlobId) (loc : PblockPackLoc) : PblockStore :=
  { st with pack := (blob, loc) :: Mru.drop st.pack blob }

/-- `DELETE FROM pack` -/
def dropRow (st : PblockStore) (blob : BlobId) : PblockStore :=
  { st with pack := Mru.drop st.pack blob }

/-- A segment file with other contents, or made. -/
def setSeg (st : PblockStore) (seg : ℕ) (file : Bytes) : PblockStore :=
  { st with segs := (seg, file) :: Mru.drop st.segs seg }

def dropSeg (st : PblockStore) (seg : ℕ) : PblockStore :=
  { st with segs := Mru.drop st.segs seg }

def setBlocks (st : PblockStore) (blob : BlobId) (blocks : Blocks) : PblockStore :=
  { st with blocks := update st.blocks blob blocks }

/-- The bytes of a segment file; none when there is no file. -/
def segBytes (st : PblockStore) (seg : ℕ) : Bytes := (Mru.find st.segs seg).getD []

@[simp] theorem setBlocks_self (st : PblockStore) (blob : BlobId) (blocks : Blocks) :
    (st.setBlocks blob blocks).blocks blob = blocks := update_self _ _ _

theorem setBlocks_of_ne (st : PblockStore) {blob blob' : BlobId} (h : blob' ≠ blob)
    (blocks : Blocks) : (st.setBlocks blob blocks).blocks blob' = st.blocks blob' :=
  update_of_ne h _ _

@[simp] theorem setBlocks_setBlocks (st : PblockStore) (blob : BlobId) (blocks blocks' : Blocks) :
    (st.setBlocks blob blocks).setBlocks blob blocks' = st.setBlocks blob blocks' := by
  rw [setBlocks, setBlocks, setBlocks, update_idem]

@[simp] theorem segBytes_setSeg (st : PblockStore) (seg : ℕ) (file : Bytes) :
    (st.setSeg seg file).segBytes seg = file := by
  rw [segBytes, setSeg, Mru.find_cons_self]
  rfl

@[simp] theorem setSeg_setSeg (st : PblockStore) (seg : ℕ) (file file' : Bytes) :
    (st.setSeg seg file).setSeg seg file' = st.setSeg seg file' := by
  rw [setSeg, setSeg, setSeg, Mru.drop_cons_self, Mru.drop_drop]

end PblockStore

/-- What one call meets: which of its steps succeed, and how far its writes get. -/
structure PackFaults : Type where
  finds : Bool
  /-- the blob's blocks, or the record's segment, are read -/
  reads : Bool
  /-- `pack/.lock` is taken -/
  locks : Bool
  opens : Bool
  rolls : Bool
  /-- bytes of header and key, and of the data, that get through -/
  headWritten : ℕ
  dataWritten : ℕ
  synced : Bool
  /-- the torn tail is cut off -/
  retracts : Bool
  inserts : Bool
  /-- the object directory is made -/
  mkdirs : Bool
  deletes : Bool
  /-- the lock is taken again and the rows of the segment are counted -/
  reaps : Bool
  /-- block file `i` is unlinked -/
  unlinks : ℕ → Bool

def pblockPackSegBytes : ℕ := 64 * 1024 * 1024

/-! ## Reading a record -/

def brixPackSegDecode (hdr : Bytes) : Option TailRecord :=
  let record : TailRecord :=
    { klen := packField hdr 4 2
      fmt := hdr.getD 6 0
      crc := packField hdr 8 4
      stored := packField hdr 12 8
      raw := packField hdr 20 8 }
  if packField hdr 0 4 ≠ segMagic ∨ record.klen = 0 ∨ packKmax < record.klen ∨ 1 < record.fmt then
    none
  else some record

/-- The header decodes to the blob and length expected. -/
def packHdrCheck (hdr : Bytes) (blob : BlobId) (expectLen : ℕ) : Option TailRecord :=
  match brixPackSegDecode hdr with
  | none => none
  | some record =>
    if record.klen ≠ blob.length ∨ record.fmt ≠ 0 ∨ record.stored ≠ record.raw ∨
        record.raw ≠ expectLen ∨ (hdr.drop segHdr).take blob.length ≠ blob then none
    else some record

/-- A read that gets every byte or nothing. -/
def packPreadFull (file : Bytes) (off len : ℕ) : Option Bytes :=
  let got := File.pread file off len
  if got.length = len then some got else none

/-- Read a packed blob back, checksum compared. -/
def packReadRecord (crc : Bytes → UInt32) (st : PblockStore) (blob : BlobId)
    (loc : PblockPackLoc) (expectLen : ℕ) : Option Bytes :=
  if blob.length = 0 ∨ packKmax < blob.length then none
  else
    (Mru.find st.segs loc.seg).bind fun file =>
      (packPreadFull file loc.off (segHdr + blob.length)).bind fun hdr =>
        (packHdrCheck hdr blob expectLen).bind fun record =>
          (packPreadFull file (loc.off + segHdr + blob.length) record.stored).bind fun data =>
            if (crc data).toNat = record.crc then some data else none

/-- `pblock_pack_or_block_read`, with the catalog and the files readable. -/
def pblockPackOrBlockRead (st : PblockStore) (blob : BlobId) (bs : ℕ+) (len off : ℕ) :
    Option Bytes :=
  match Mru.find st.pack blob with
  | none => some (pblockReadBlocks (st.blocks blob) bs len off)
  | some loc =>
    if loc.len ≤ off then some []
    else
      (Mru.find st.segs loc.seg).bind fun file =>
        packPreadFull file (loc.off + segHdr + blob.length + off) (min len (loc.len - off))

/-! ## The calls -/

open Proc

/-- The highest segment is the active one. -/
def packActiveSeg (st : PblockStore) : ℕ := st.segs.foldl (fun hi seg => max hi seg.1) 0

/-- A segment is opened `O_CREAT`. -/
def PblockStore.openSeg (st : PblockStore) (seg : ℕ) : PblockStore := st.setSeg seg (st.segBytes seg)

/-- `pack_open_admit_seg`: the segment to append to and its length. -/
def packOpenAdmitSeg (io : PackFaults) (klen size : ℕ) : Proc PblockStore (Option (ℕ × ℕ)) := do
  let active ← gets packActiveSeg
  let seg := if active = 0 then 1 else active
  if !io.opens then pure none
  else
    step fun st => st.openSeg seg
    let tail ← gets fun st => (st.segBytes seg).length
    if 0 < tail ∧ pblockPackSegBytes < tail + (segHdr + klen) + size then
      if !io.rolls then pure none
      else
        step fun st => st.openSeg (seg + 1)
        let next ← gets fun st => (st.segBytes (seg + 1)).length
        pure (some (seg + 1, next))
    else pure (some (seg, tail))

/-- `pwrite` into a segment. -/
def PblockStore.writeSeg (st : PblockStore) (seg off : ℕ) (bytes : Bytes) : PblockStore :=
  st.setSeg seg (File.pwrite 0 (st.segBytes seg) off bytes)

/-- The torn tail of an append is cut off again. -/
def PblockStore.cutSeg (st : PblockStore) (seg off : ℕ) : PblockStore :=
  st.setSeg seg (File.ftruncate 0 (st.segBytes seg) off)

/-- Append header, key and payload. -/
def packWriteRecord (crc : Bytes → UInt32) (io : PackFaults) (seg : ℕ) (r : SegRec) (off : ℕ) :
    Proc PblockStore Bool := do
  let head := segHeader r.key.length r.fmt (crc r.data).toNat r.data.length r.raw ++ r.key
  step fun st => st.writeSeg seg off (head.take io.headWritten)
  if io.headWritten < head.length then
    let _ ← attempt io.retracts fun st => st.cutSeg seg off
    pure false
  else
    step fun st => st.writeSeg seg (off + head.length) (r.data.take io.dataWritten)
    if io.dataWritten < r.data.length ∨ !io.synced then
      let _ ← attempt io.retracts fun st => st.cutSeg seg off
      pure false
    else pure true

/-- Block file `i` of a blob is unlinked, or not: nobody asks. -/
def PblockStore.unlinkBlock (io : PackFaults) (st : PblockStore) (blob : BlobId) (i : ℕ) :
    PblockStore :=
  if io.unlinks i then st.setBlocks blob (update (st.blocks blob) i none) else st

/-- Unlink the block files of a blob. -/
def pblockRemoveBlocks (io : PackFaults) (blob : BlobId) (size : ℕ) (bs : ℕ+) :
    Proc PblockStore Unit :=
  forEach (fun i => step fun st => st.unlinkBlock io blob i) (List.range (pblockLastBlock size bs + 1))

/-- `pblock_pack_admit`: true when the blob came to rest in the arena. -/
def pblockPackAdmit (crc : Bytes → UInt32) (io : PackFaults) (blob : BlobId) (size : ℕ)
    (bs : ℕ+) : Proc PblockStore Bool := do
  if size = 0 ∨ blob.length = 0 ∨ packKmax < blob.length then pure false
  else
    let data ← gets fun st => pblockReadBlocks (st.blocks blob) bs size 0
    if !io.reads ∨ !io.locks then pure false
    else
      let target ← packOpenAdmitSeg io blob.length size
      match target with
      | none => pure false
      | some (seg, off) =>
        let appended ← packWriteRecord crc io seg ⟨blob, 0, size, data⟩ off
        if !appended then pure false
        else
          let inserted ← attempt io.inserts fun st => st.putRow blob ⟨seg, off, size⟩
          if !inserted then pure false
          else
            pblockRemoveBlocks io blob size bs
            pure true

/-- A segment no row points at is dropped. -/
def packSegReap (io : PackFaults) (seg : ℕ) : Proc PblockStore Unit :=
  step fun st => if io.reaps ∧ st.pack.countP (fun row => row.2.seg = seg) = 0 then st.dropSeg seg
    else st

/-- The rows and blocks of a `pwrite` of the block engine. -/
def PblockStore.putPiece (blob : BlobId) (p : BlockPiece) (st : PblockStore) : PblockStore :=
  st.setBlocks blob (p.put (st.blocks blob))

/-- `pblock_pack_materialize`: true when the blob is striped, or was so. -/
def pblockPackMaterialize (crc : Bytes → UInt32) (io : PackFaults) (blob : BlobId) (size : ℕ)
    (bs : ℕ+) : Proc PblockStore Bool := do
  let row ← gets fun st => Mru.find st.pack blob
  if !io.finds then pure false
  else
    match row with
    | none => pure true
    | some loc =>
      let record ← gets fun st => packReadRecord crc st blob loc size
      match record with
      | none => pure false
      | some data =>
        if !io.reads ∨ !io.mkdirs then pure false
        else
          forEach (fun p => step (PblockStore.putPiece blob p))
            (blockPieces bs (data.take io.dataWritten) 0)
          if min io.dataWritten data.length ≠ size then pure false
          else
            -- the row is deleted without a look at the outcome
            let _ ← attempt io.deletes fun st => st.dropRow blob
            packSegReap io loc.seg
            pure true

/-- Drop a blob's row and reap its segment. -/
def pblockPackDel (io : PackFaults) (blob : BlobId) : Proc PblockStore Unit := do
  let row ← gets fun st => Mru.find st.pack blob
  match row with
  | none => pure ()
  | some loc =>
    if !io.finds then pure ()
    else
      let _ ← attempt io.deletes fun st => st.dropRow blob
      packSegReap io loc.seg

end BrixCache

/-!
## Packed and striped blobs read alike

The one way out is the row a materialisation does not get rid of: its `DELETE` may fail unnoticed.
-/

namespace BrixCache

open List

/-- A blob: its bytes as its writers left them, and its stripe size. -/
structure PackObj : Type where
  bytes : Bytes
  bs : ℕ+

def packRecord (blob : BlobId) (bytes : Bytes) : SegRec := ⟨blob, 0, bytes.length, bytes⟩

variable {crc : Bytes → UInt32}

/-- The record a row points to is there. -/
structure RecordAt (crc : Bytes → UInt32) (st : PblockStore) (blob : BlobId)
    (bytes : Bytes) (loc : PblockPackLoc) : Prop where
  len : loc.len = bytes.length
  fits : (packRecord blob bytes).Fits
  bytes : ∃ file, Mru.find st.segs loc.seg = some file ∧
    File.pread file loc.off (segHdr + blob.length + bytes.length) =
      (packRecord blob bytes).encode crc

/-- **The invariant.** Each blob is in its block files, or in a record with
nothing behind its size in block files that may have been left over. -/
structure PackInv (crc : Bytes → UInt32) (objs : BlobId → Option PackObj)
    (st : PblockStore) : Prop where
  striped : ∀ blob o, objs blob = some o → Mru.find st.pack blob = none →
    Stripes (st.blocks blob) o.bs o.bytes
  record : ∀ blob o loc, objs blob = some o → Mru.find st.pack blob = some loc →
    RecordAt crc st blob o.bytes loc
  zeros : ∀ blob o, objs blob = some o → ∀ i, o.bytes.length ≤ i →
    blockByte (st.blocks blob) o.bs i = 0
  sized : ∀ blob o, objs blob = some o → o.bytes.length < 2 ^ 63

/-! ### The record of a blob -/

theorem packRecord_encode (blob : BlobId) (bytes : Bytes) :
    (packRecord blob bytes).encode crc =
      segHeader blob.length 0 (crc bytes).toNat bytes.length bytes.length ++ blob ++ bytes := by
  rw [SegRec.encode, packRecord, append_assoc]

theorem packRecord_fits {blob : BlobId} {bytes : Bytes} (hkey : PackKey blob)
    (hlen : bytes.length < 2 ^ 63) : (packRecord blob bytes).Fits where
  key := hkey
  fmt := UInt8.zero_le
  data := hlen
  raw := hlen

theorem packHdrCheck_record {blob : BlobId} {bytes : Bytes}
    (hfits : (packRecord blob bytes).Fits) :
    packHdrCheck (segHeader blob.length 0 (crc bytes).toNat bytes.length bytes.length ++ blob) blob
        bytes.length =
      some ⟨blob.length, 0, (crc bytes).toNat, bytes.length, bytes.length⟩ := by
  obtain ⟨hmagic, hklen, hfmt, hcrc, hstored, hraw⟩ := segHeader_fields hfits (crc bytes) blob
  have hkey := hfits.key
  simp only [packRecord] at hmagic hklen hfmt hcrc hstored hraw hkey
  have hdec : brixPackSegDecode
      (segHeader blob.length 0 (crc bytes).toNat bytes.length bytes.length ++ blob) =
        some ⟨blob.length, 0, (crc bytes).toNat, bytes.length, bytes.length⟩ := by
    rw [brixPackSegDecode]
    simp only [hmagic, hklen, hfmt, hcrc, hstored, hraw]
    rw [if_neg]
    simp only [not_or]
    exact ⟨fun h => h rfl, Nat.ne_of_gt hkey.1, Nat.not_lt.mpr hkey.2, by decide⟩
  rw [packHdrCheck, hdec]
  simp [drop_left' (segHeader_length _ _ _ _ _)]

variable {st : PblockStore} {objs : BlobId → Option PackObj} {blob : BlobId}

namespace RecordAt

variable {bytes : Bytes} {loc : PblockPackLoc}

theorem pread (h : RecordAt crc st blob bytes loc) {file : Bytes}
    (hfile : Mru.find st.segs loc.seg = some file) {off len : ℕ} (hin : off + len ≤ bytes.length) :
    packPreadFull file (loc.off + segHdr + blob.length + off) len =
      some (File.pread bytes off len) := by
  obtain ⟨file', hfind, hrec⟩ := h.bytes
  rw [hfile] at hfind
  cases hfind
  have hget : File.pread file (loc.off + segHdr + blob.length + off) len =
      File.pread bytes off len := by
    have hroom : segHdr + blob.length + off + len ≤ segHdr + blob.length + bytes.length := by omega
    have hpart := File.pread_pread file loc.off hroom
    rw [hrec, packRecord_encode, File.pread, ← drop_drop, drop_left' (by simp)] at hpart
    rw [Nat.add_assoc, Nat.add_assoc, ← Nat.add_assoc segHdr, ← hpart, File.pread]
  rw [packPreadFull, hget, if_pos]
  rw [File.length_pread]
  omega

theorem readRecord (h : RecordAt crc st blob bytes loc) :
    packReadRecord crc st blob loc bytes.length = some bytes := by
  obtain ⟨file, hfile, hrec⟩ := h.bytes
  have hkey := h.fits.key
  have hhead : packPreadFull file loc.off (segHdr + blob.length) =
      some (segHeader blob.length 0 (crc bytes).toNat bytes.length bytes.length ++ blob) := by
    have hroom : 0 + (segHdr + blob.length) ≤ segHdr + blob.length + bytes.length := by omega
    have hpart := File.pread_pread file loc.off hroom
    rw [hrec, packRecord_encode, File.pread, drop_zero, take_left' (by simp),
      Nat.add_zero] at hpart
    rw [packPreadFull, ← hpart, if_pos (by simp)]
  have hall : 0 + bytes.length ≤ bytes.length := by omega
  have hdata := h.pread hfile hall
  rw [File.pread, drop_zero, take_length, Nat.add_zero] at hdata
  rw [packReadRecord, if_neg, hfile, Option.bind_some, hhead, Option.bind_some,
    packHdrCheck_record h.fits, Option.bind_some]
  · simp only [hdata, Option.bind_some, if_true]
  · rintro (hzero | hmax)
    · exact Nat.ne_of_gt hkey.1 hzero
    · exact Nat.not_lt.mpr hkey.2 hmax

theorem grow (h : RecordAt crc st blob bytes loc) {st' : PblockStore}
    (hgrow : ∀ file, Mru.find st.segs loc.seg = some file →
      ∃ file', Mru.find st'.segs loc.seg = some file' ∧ file <+: file') :
    RecordAt crc st' blob bytes loc := by
  obtain ⟨file, hfile, hrec⟩ := h.bytes
  obtain ⟨file', hfile', hpre⟩ := hgrow file hfile
  refine ⟨h.len, h.fits, file', hfile', ?_⟩
  rw [File.pread_prefix hpre, hrec]
  have hlen := congrArg length hrec
  rw [File.length_pread, SegRec.encode_length, packRecord] at hlen
  dsimp only at hlen
  have hpos : 0 < segHdr := by decide
  omega

end RecordAt

/-! ### What a step keeps -/

namespace PackInv

section

variable (h : PackInv crc objs st)
include h

theorem read {o : PackObj} (ho : objs blob = some o) (len off : ℕ) :
    pblockPackOrBlockRead st blob o.bs len off = some (File.pread o.bytes off len) ↔
      Mru.find st.pack blob ≠ none ∨ len = 0 ∨ off + len ≤ o.bytes.length := by
  rw [pblockPackOrBlockRead]
  cases hrow : Mru.find st.pack blob with
  | none =>
    have hstripes := h.striped blob o ho hrow
    simp only [Option.some.injEq, ne_eq, not_true_eq_false, false_or]
    constructor
    · intro heq
      have hlen := congrArg length heq
      rw [pblockReadBlocks_length, File.length_pread] at hlen
      omega
    · rintro (rfl | hin)
      · rw [pblockReadBlocks, dif_pos rfl, File.pread, take_zero]
      · exact hstripes.read hin
  | some loc =>
    have hrec := h.record blob o loc ho hrow
    obtain ⟨file, hfile, -⟩ := hrec.bytes
    simp only [ne_eq, reduceCtorEq, not_false_eq_true, true_or, iff_true]
    by_cases hoff : loc.len ≤ off
    · rw [if_pos hoff, File.pread, drop_eq_nil_of_le (by rw [← hrec.len]; exact hoff),
        take_nil]
    · rw [if_neg hoff, hfile, Option.bind_some, hrec.len,
        hrec.pread hfile (by rw [hrec.len] at hoff; omega), File.pread_min]

theorem setSeg {seg : ℕ} {file : Bytes}
    (hgrow : ∀ f, Mru.find st.segs seg = some f → f <+: file) :
    PackInv crc objs (st.setSeg seg file) where
  striped := h.striped
  record := by
    intro blob o loc ho hrow
    apply (h.record blob o loc ho hrow).grow
    intro f hf
    by_cases hseg : loc.seg = seg
    · rw [hseg] at hf ⊢
      exact ⟨file, Mru.find_cons_self _ _ _, hgrow f hf⟩
    · refine ⟨f, ?_, prefix_rfl⟩
      rw [PblockStore.setSeg, Mru.find_cons_of_ne (Ne.symm hseg), Mru.find_drop_of_ne hseg, hf]
  zeros := h.zeros
  sized := h.sized

theorem openSeg (seg : ℕ) : PackInv crc objs (st.openSeg seg) := by
  apply h.setSeg
  intro f hf
  rw [PblockStore.segBytes, hf]
  exact prefix_rfl

theorem putRow {o : PackObj} {loc : PblockPackLoc}
    (ho : objs blob = some o) (hrec : RecordAt crc st blob o.bytes loc) :
    PackInv crc objs (st.putRow blob loc) where
  striped := by
    intro blob' o' ho' hrow
    by_cases hb : blob = blob'
    · subst hb
      rw [PblockStore.putRow, Mru.find_cons_self] at hrow
      cases hrow
    · rw [PblockStore.putRow, Mru.find_cons_of_ne hb, Mru.find_drop_of_ne (Ne.symm hb)] at hrow
      exact h.striped blob' o' ho' hrow
  record := by
    intro blob' o' loc' ho' hrow
    by_cases hb : blob = blob'
    · subst hb
      rw [ho] at ho'
      cases ho'
      rw [PblockStore.putRow, Mru.find_cons_self] at hrow
      cases hrow
      exact ⟨hrec.len, hrec.fits, hrec.bytes⟩
    · rw [PblockStore.putRow, Mru.find_cons_of_ne hb, Mru.find_drop_of_ne (Ne.symm hb)] at hrow
      have hrec' := h.record blob' o' loc' ho' hrow
      exact ⟨hrec'.len, hrec'.fits, hrec'.bytes⟩
  zeros := h.zeros
  sized := h.sized

theorem dropRow
    (hstripes : ∀ o, objs blob = some o → Stripes (st.blocks blob) o.bs o.bytes) :
    PackInv crc objs (st.dropRow blob) where
  striped := by
    intro blob' o' ho' hrow
    by_cases hb : blob' = blob
    · subst hb
      exact hstripes o' ho'
    · rw [PblockStore.dropRow, Mru.find_drop_of_ne hb] at hrow
      exact h.striped blob' o' ho' hrow
  record := by
    intro blob' o' loc' ho' hrow
    obtain ⟨-, hrow⟩ := Mru.of_find_drop hrow
    have hrec := h.record blob' o' loc' ho' hrow
    exact ⟨hrec.len, hrec.fits, hrec.bytes⟩
  zeros := h.zeros
  sized := h.sized

theorem dropSeg {seg : ℕ}
    (hnone : st.pack.countP (fun row => row.2.seg = seg) = 0) :
    PackInv crc objs (st.dropSeg seg) where
  striped := h.striped
  record := by
    intro blob o loc ho hrow
    have hseg : loc.seg ≠ seg := by
      simpa using countP_eq_zero.mp hnone _ (Mru.mem_of_find hrow)
    apply (h.record blob o loc ho hrow).grow
    intro f hf
    refine ⟨f, ?_, prefix_rfl⟩
    rw [PblockStore.dropSeg, Mru.find_drop_of_ne hseg, hf]
  zeros := h.zeros
  sized := h.sized

theorem setBlocks (blob : BlobId) (blocks : Blocks)
    (hrow : objs blob ≠ none → Mru.find st.pack blob ≠ none)
    (hzeros : ∀ o, objs blob = some o → ∀ i, o.bytes.length ≤ i → blockByte blocks o.bs i = 0) :
    PackInv crc objs (st.setBlocks blob blocks) where
  striped := by
    intro blob' o' ho' hnone
    by_cases hb : blob' = blob
    · subst hb
      exact absurd hnone (hrow (by rw [ho']; exact Option.some_ne_none o'))
    · rw [PblockStore.setBlocks_of_ne _ hb]
      exact h.striped blob' o' ho' hnone
  record := by
    intro blob' o' loc' ho' hrow'
    have hrec := h.record blob' o' loc' ho' hrow'
    exact ⟨hrec.len, hrec.fits, hrec.bytes⟩
  zeros := by
    intro blob' o' ho'
    by_cases hb : blob' = blob
    · subst hb
      rw [PblockStore.setBlocks_self]
      exact hzeros o' ho'
    · rw [PblockStore.setBlocks_of_ne _ hb]
      exact h.zeros blob' o' ho'
  sized := h.sized

end

end PackInv

/-! ### The calls -/

open Proc

theorem find_openSeg (st : PblockStore) (seg : ℕ) :
    Mru.find (st.openSeg seg).segs seg = some (st.segBytes seg) := Mru.find_cons_self _ _ _

theorem segBytes_openSeg (st : PblockStore) (seg : ℕ) :
    (st.openSeg seg).segBytes seg = st.segBytes seg := PblockStore.segBytes_setSeg _ _ _

theorem wp_packOpenAdmitSeg {C : PblockStore → Prop} (hC : ∀ st seg, C st → C (st.openSeg seg))
    (io : PackFaults) (klen size : ℕ) (hst : C st) :
    wp C (packOpenAdmitSeg io klen size)
      (fun target st' => C st' ∧ st'.blocks = st.blocks ∧ st'.pack = st.pack ∧
        ∀ seg off, target = some (seg, off) →
          ∃ file, Mru.find st'.segs seg = some file ∧ file.length = off) st := by
  simp only [packOpenAdmitSeg, wp_bind, wp_gets, wp_ite, wp_pure, wp_step]
  generalize (if packActiveSeg st = 0 then 1 else packActiveSeg st) = seg
  split
  · exact ⟨hst, trivial, trivial, (fun _ _ h => by cases h)⟩
  · have hopen := hC st seg hst
    refine ⟨hopen, ?_⟩
    split
    · split
      · exact ⟨hopen, rfl, rfl, (fun _ _ h => by cases h)⟩
      · have hroll := hC (st.openSeg seg) (seg + 1) hopen
        refine ⟨hroll, hroll, rfl, rfl, ?_⟩
        rintro _ _ ⟨⟩
        exact ⟨_, find_openSeg _ _, by rw [segBytes_openSeg]⟩
    · refine ⟨hopen, rfl, rfl, ?_⟩
      rintro _ _ ⟨⟩
      exact ⟨_, find_openSeg _ _, by rw [segBytes_openSeg]⟩

theorem wp_packWriteRecord {C : PblockStore → Prop} {seg : ℕ} {file : Bytes}
    (hfile : Mru.find st.segs seg = some file) (hC : ∀ x, C (st.setSeg seg (file ++ x)))
    (io : PackFaults) (r : SegRec) :
    wp C (packWriteRecord crc io seg r file.length)
      (fun ok st' => ∃ x, st' = st.setSeg seg (file ++ x) ∧ (ok = true → x = r.encode crc)) st := by
  have hbytes : st.segBytes seg = file := by
    rw [PblockStore.segBytes, hfile]
    rfl
  have hwrite : ∀ cells, st.writeSeg seg file.length cells = st.setSeg seg (file ++ cells) := by
    intro cells
    rw [PblockStore.writeSeg, hbytes, File.pwrite_length]
  have hmore : ∀ head cells, (st.setSeg seg (file ++ head)).writeSeg seg (file.length + head.length)
      cells = st.setSeg seg (file ++ head ++ cells) := by
    intro head cells
    rw [PblockStore.writeSeg, PblockStore.segBytes_setSeg, PblockStore.setSeg_setSeg,
      ← length_append, File.pwrite_length]
  have hcut : ∀ cells, (st.setSeg seg (file ++ cells)).cutSeg seg file.length =
      st.setSeg seg (file ++ []) := by
    intro cells
    rw [PblockStore.cutSeg, PblockStore.segBytes_setSeg, PblockStore.setSeg_setSeg,
      File.ftruncate_append, append_nil]
  simp only [packWriteRecord, wp_bind, wp_ite, wp_pure, wp_step, wp_attempt, hwrite]
  generalize hhead : segHeader r.key.length r.fmt (crc r.data).toNat r.data.length r.raw ++ r.key =
    head
  refine ⟨hC _, ?_⟩
  split
  · split
    · rw [hcut]
      exact ⟨hC [], [], rfl, (fun h => by cases h)⟩
    · exact ⟨_, rfl, (fun h => by cases h)⟩
  · rename_i hwhole
    rw [take_of_length_le (Nat.not_lt.mp hwhole), hmore, append_assoc]
    refine ⟨hC _, ?_⟩
    split
    · split
      · rw [hcut]
        exact ⟨hC [], [], rfl, (fun h => by cases h)⟩
      · exact ⟨_, rfl, (fun h => by cases h)⟩
    · rename_i hdata
      refine ⟨_, rfl, fun _ => ?_⟩
      rw [take_of_length_le (Nat.not_lt.mp fun h => hdata (.inl h)), SegRec.encode, ← hhead,
        append_assoc]

section

variable (h : PackInv crc objs st)
include h

theorem PackInv.unlinkBlock
    (hrow : objs blob ≠ none → Mru.find st.pack blob ≠ none) (io : PackFaults) (i : ℕ) :
    PackInv crc objs (st.unlinkBlock io blob i) := by
  rw [PblockStore.unlinkBlock]
  split
  · apply h.setBlocks _ _ hrow
    intro o ho k hk
    rw [blockByte_update]
    split
    · rfl
    · exact h.zeros blob o ho k hk
  · exact h

theorem PackInv.removeBlocks
    (hrow : objs blob ≠ none → Mru.find st.pack blob ≠ none) (io : PackFaults) (size : ℕ) (bs : ℕ+) :
    wp (PackInv crc objs) (pblockRemoveBlocks io blob size bs)
      (fun _ st' => PackInv crc objs st' ∧ (objs blob ≠ none → Mru.find st'.pack blob ≠ none)) st := by
  apply wp_forEach (fun st => PackInv crc objs st ∧ (objs blob ≠ none → Mru.find st.pack blob ≠ none))
  · rintro i - st ⟨h, hrow⟩
    have hnext := h.unlinkBlock hrow io i
    have hpack : (st.unlinkBlock io blob i).pack = st.pack := by
      rw [PblockStore.unlinkBlock]
      split <;> rfl
    rw [wp_step, hpack]
    exact ⟨hnext, hnext, hrow⟩
  · exact ⟨h, hrow⟩

/-- An admission, wherever it fails -/
theorem PackInv.packAdmit {o : PackObj} (ho : objs blob = some o)
    (hnone : Mru.find st.pack blob = none) (io : PackFaults) :
    wp (PackInv crc objs) (pblockPackAdmit crc io blob o.bytes.length o.bs)
      (fun _ => PackInv crc objs) st := by
  have hall : 0 + o.bytes.length ≤ o.bytes.length := by omega
  have hread := (h.striped blob o ho hnone).read hall
  rw [File.pread, drop_zero, take_length] at hread
  simp only [pblockPackAdmit, wp_ite, wp_pure, wp_bind, wp_gets, hread]
  split
  · exact h
  · rename_i hargs
    split
    · exact h
    · refine wp_mono (wp_packOpenAdmitSeg (C := PackInv crc objs) (fun _ seg h => h.openSeg seg) io _ _ h)
        (fun _ h => h) ?_
      rintro (_ | ⟨seg, off⟩) st₁ ⟨h₁, hblocks, hpack, htarget⟩
      · exact (wp_pure _ _).mpr h₁
      · obtain ⟨file, hfile, rfl⟩ := htarget seg off rfl
        have hgrow : ∀ x, PackInv crc objs (st₁.setSeg seg (file ++ x)) := by
          intro x
          apply h₁.setSeg
          intro f hf
          rw [hfile] at hf
          cases hf
          exact prefix_append _ _
        simp only [wp_bind]
        refine wp_mono (wp_packWriteRecord hfile hgrow io _) (fun _ h => h) ?_
        rintro ok st₂ ⟨x, rfl, hx⟩
        cases ok with
        | false => simpa using hgrow x
        | true =>
          obtain rfl := hx rfl
          have hkey : PackKey blob := by
            rw [PackKey]
            omega
          -- the record is whole and in its place before its row is
          have hrec : RecordAt crc (st₁.setSeg seg (file ++ (packRecord blob o.bytes).encode crc))
              blob o.bytes ⟨seg, file.length, o.bytes.length⟩ := by
            refine ⟨rfl, packRecord_fits hkey (h.sized blob o ho), _, Mru.find_cons_self _ _ _, ?_⟩
            rw [File.pread, drop_left, take_of_length_le]
            rw [SegRec.encode_length]
            exact Nat.le_refl _
          have hrow := (hgrow ((packRecord blob o.bytes).encode crc)).putRow ho hrec
          simp only [Bool.not_true, Bool.false_eq_true, if_false, wp_bind, wp_attempt]
          split
          · refine ⟨hrow, ?_⟩
            refine wp_mono (hrow.removeBlocks ?_ io _ _) (fun _ h => h)
              fun _ _ h => (wp_pure _ _).mpr h.1
            intro _
            rw [PblockStore.putRow, Mru.find_cons_self]
            exact Option.some_ne_none _
          · simpa using hgrow _

theorem PackInv.segReap (io : PackFaults) (seg : ℕ) :
    wp (PackInv crc objs) (packSegReap io seg) (fun _ => PackInv crc objs) st := by
  rw [packSegReap, wp_step]
  split
  · rename_i hnone
    exact ⟨h.dropSeg hnone.2, h.dropSeg hnone.2⟩
  · exact ⟨h, h⟩

end

theorem foldl_putPiece (ps : List BlockPiece) (st : PblockStore) :
    ps.foldl (fun st p => PblockStore.putPiece blob p st) st =
      st.setBlocks blob (ps.foldl (fun blocks p => p.put blocks) (st.blocks blob)) := by
  induction ps generalizing st with
  | nil => rw [foldl_nil, foldl_nil, PblockStore.setBlocks, Function.update_eq_self]
  | cons p ps ih =>
    rw [foldl_cons, ih, foldl_cons, PblockStore.putPiece, PblockStore.setBlocks_self,
      PblockStore.setBlocks_setBlocks]

theorem PackInv.writePieces (h : PackInv crc objs st) {o : PackObj} (ho : objs blob = some o)
    (hrow : Mru.find st.pack blob ≠ none) (data : Bytes) (hdata : data.length ≤ o.bytes.length) :
    wp (PackInv crc objs)
      (forEach (fun p => step (PblockStore.putPiece blob p)) (blockPieces o.bs data 0))
      (fun _ st' => PackInv crc objs st' ∧
        st' = st.setBlocks blob (pblockWriteBlocks (st.blocks blob) o.bs data 0)) st := by
  have hkeep : wp (PackInv crc objs)
      (forEach (fun p => step (PblockStore.putPiece blob p)) (blockPieces o.bs data 0))
      (fun _ st' => PackInv crc objs st' ∧ Mru.find st'.pack blob ≠ none) st := by
    apply wp_forEach (fun st => PackInv crc objs st ∧ Mru.find st.pack blob ≠ none)
    · rintro p hp st ⟨h, hrow⟩
      obtain ⟨hroom, -, hhigh⟩ := blockPieces_range hp
      have hnext : PackInv crc objs (PblockStore.putPiece blob p st) := by
        apply h.setBlocks _ _ fun _ => hrow
        intro o' ho' i hi
        rw [ho] at ho'
        cases ho'
        rw [blockByte_put hroom, if_neg (by omega)]
        exact h.zeros blob o ho i hi
      exact (wp_step _ _).mpr ⟨hnext, hnext, hrow⟩
    · exact ⟨h, hrow⟩
  refine wp_mono (wp_and hkeep (wp_forEach_step _ _ _)) (fun _ h => h) ?_
  rintro _ st' ⟨⟨h', -⟩, rfl⟩
  exact ⟨h', foldl_putPiece _ _⟩

/-- A materialisation, wherever it fails -/
theorem PackInv.materialize (h : PackInv crc objs st) {o : PackObj} (ho : objs blob = some o)
    (io : PackFaults) :
    wp (PackInv crc objs) (pblockPackMaterialize crc io blob o.bytes.length o.bs)
      (fun _ => PackInv crc objs) st := by
  simp only [pblockPackMaterialize, wp_bind, wp_gets, wp_ite, wp_pure]
  split
  · exact h
  · cases hrow : Mru.find st.pack blob with
    | none => exact (wp_pure _ _).mpr h
    | some loc =>
      have hrec := (h.record blob o loc ho hrow).readRecord
      simp only [wp_bind, wp_gets, hrec, wp_ite, wp_pure]
      split
      · exact h
      · have hsome : Mru.find st.pack blob ≠ none := by
          rw [hrow]
          exact Option.some_ne_none loc
        have hpieces := h.writePieces ho hsome (o.bytes.take io.dataWritten)
          (by rw [length_take]; omega)
        refine wp_mono hpieces (fun _ h => h) ?_
        rintro - st' ⟨h', hst'⟩
        split
        · exact (wp_pure _ _).mpr h'
        · rename_i hwhole
          rw [take_of_length_le (by omega)] at hst'
          -- all of the blob is in its block files before the row goes
          have hstripes : ∀ o', objs blob = some o' → Stripes (st'.blocks blob) o'.bs o'.bytes := by
            intro o' ho'
            rw [ho] at ho'
            cases ho'
            intro i
            rw [hst', PblockStore.setBlocks_self, blockByte_write, Nat.sub_zero]
            split
            · rfl
            · rename_i hout
              rw [h.zeros blob o ho i (by omega), getD_eq_getElem?_getD,
                getElem?_eq_none (by omega)]
              rfl
          have hdrop := h'.dropRow hstripes
          simp only [wp_bind, wp_attempt]
          split
          · refine ⟨hdrop, ?_⟩
            exact wp_mono (hdrop.segReap io loc.seg) (fun _ h => h) fun _ _ h => (wp_pure _ _).mpr h
          · exact wp_mono (h'.segReap io loc.seg) (fun _ h => h) fun _ _ h => (wp_pure _ _).mpr h

theorem PackInv.del (h : PackInv crc objs st) (hnone : objs blob = none) (io : PackFaults) :
    wp (PackInv crc objs) (pblockPackDel io blob) (fun _ => PackInv crc objs) st := by
  simp only [pblockPackDel, wp_bind, wp_gets]
  cases hrow : Mru.find st.pack blob with
  | none => exact (wp_pure _ _).mpr h
  | some loc =>
    have hdrop : PackInv crc objs (st.dropRow blob) := by
      apply h.dropRow
      intro o ho
      rw [hnone] at ho
      cases ho
    simp only [wp_bind, wp_ite, wp_pure, wp_attempt]
    split
    · exact h
    · split
      · exact ⟨hdrop, hdrop.segReap io loc.seg⟩
      · exact h.segReap io loc.seg

end BrixCache
