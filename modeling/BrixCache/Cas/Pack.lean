import BrixCache.Cas.PackFormat
import BrixCache.Core.Ascii
import Mathlib.Algebra.Ring.Int.Defs
import Mathlib.Data.List.AList

/-!
# The packed store

`shared/cache/cas_pack.c` with its two fragments: objects are appended to segment
files, a journal says where, and a table in memory holds what the journal amounts
to. The table is a map from keys; where its slots are scanned, the order is
whatever the hash made it. A write may fail part way: what of it happened is in
the `PackIo` of the call. `zstd` and `crc32` are parameters.
-/

namespace BrixCache

/-- What a store is opened with, and the two libraries. -/
structure PackCfg : Type where
  /-- `quota_bytes`; 0 is unbounded -/
  quota : ℤ
  /-- `seg_max`, a positive `long` -/
  segMax : ℕ
  segMax_lt : segMax < 2 ^ 63
  tiering : Bool
  crc : Bytes → UInt32
  /-- `ZSTD_compress` at level three, when it succeeds -/
  compress : Bytes → Option Bytes
  /-- `ZSTD_decompress` into a buffer of the given size, when it succeeds -/
  decompress : ℕ → Bytes → Option Bytes

/-- What happens to the writes of a call. -/
structure PackIo : Type where
  segFail : Option ℕ
  /-- how much of a journal record is written before its write fails -/
  idxFail : Option ℕ
  /-- `idx_compact` gives up before its rename -/
  compactFail : Bool
  /-- the table's slots as a scan meets them -/
  order : List (Σ _ : Bytes, PackLoc × UInt32) → List (Σ _ : Bytes, PackLoc × UInt32)

/-- A scan of the table meets every live slot once. -/
def PackIo.Scans (io : PackIo) : Prop := ∀ slots, (io.order slots).Perm slots

/-- The table: a live key's place and its hits. -/
abbrev PackTab : Type := AList (fun _ : Bytes => PackLoc × UInt32)

/-- The files under `pack/`. -/
structure PackDisk : Type where
  segs : AList (fun _ : ℕ => Bytes)
  /-- `index.log` -/
  idx : Bytes

/-- An open store. -/
structure CasPack : Type extends PackDisk where
  tab : PackTab
  segLo : ℕ
  segHi : ℕ
  /-- where the next record of the active segment goes -/
  segOff : ℕ
  liveBytes : ℤ
  lo_le : segLo ≤ segHi

namespace CasPack

variable (cfg : PackCfg) (io : PackIo) (p : CasPack)

/-! ## Appending -/

/-- `idx_append`: a write that fails leaves a front of the record behind, short of its last byte. -/
def idxAppend (op : UInt8) (key : Bytes) (loc : PackLoc) : CasPack × Bool :=
  let bytes := (IdxRec.mk op key loc).encode cfg.crc
  match io.idxFail with
  | none => ({ p with idx := p.idx ++ bytes }, true)
  | some n => ({ p with idx := p.idx ++ bytes.dropLast.take n }, false)

/-- Open the next segment for appending. -/
def rollActive : CasPack :=
  { p with
    segs := p.segs.insert (p.segHi + 1) ((p.segs.lookup (p.segHi + 1)).getD [])
    segHi := p.segHi + 1
    segOff := 0
    lo_le := Nat.le_succ_of_le p.lo_le }

/-- The bytes of a segment file; none where there is no file. -/
def segBytes (seg : ℕ) : Bytes := (p.segs.lookup seg).getD []

/-- The active segment takes new bytes, and the append offset moves. -/
def setActive (bytes : Bytes) (off : ℕ) : CasPack :=
  { p with
    segs := p.segs.insert p.segHi bytes
    segOff := off }

/-- A write of `data` at an offset. -/
def segWrite (bytes : Bytes) (off : ℕ) (data : Bytes) : Bytes :=
  bytes.take off ++ data ++ bytes.drop (off + data.length)

/-- The roll that `append_record` starts with when the record does not fit. -/
def rollFor (size : ℕ) : CasPack :=
  if 0 < p.segOff ∧ cfg.segMax < p.segOff + size then p.rollActive else p

/-- `append_record`: what a failed write left is cut off again. -/
def appendRecord (r : SegRec) : CasPack × Option PackLoc :=
  let q := p.rollFor cfg (r.encode cfg.crc).length
  match io.segFail with
  | some n =>
    (q.setActive ((segWrite (q.segBytes q.segHi) q.segOff
      ((r.encode cfg.crc).dropLast.take n)).take q.segOff) q.segOff, none)
  | none =>
    (q.setActive (segWrite (q.segBytes q.segHi) q.segOff (r.encode cfg.crc))
      (q.segOff + (r.encode cfg.crc).length),
      some ⟨q.segHi, q.segOff, r.fmt, r.data.length, r.raw⟩)

/-! ## Reading -/

/-- The header on disk is that of `key` at this location. -/
def storedHeaderRead (bytes key : Bytes) (loc : PackLoc) : Bool :=
  let header := bytes.drop loc.off
  decide (loc.off + segHdr + key.length ≤ bytes.length) &&
    decide (packField header 0 4 = segMagic) && decide (packField header 4 2 = key.length) &&
    decide (header.getD 6 0 = loc.fmt) && decide (packField header 12 8 = loc.stored) &&
    decide ((header.drop segHdr).take key.length = key)

def storedPayloadRead (bytes key : Bytes) (loc : PackLoc) : Option Bytes :=
  let data := (bytes.drop (loc.off + segHdr + key.length)).take loc.stored
  if loc.off + segHdr + key.length + loc.stored ≤ bytes.length ∧
      (cfg.crc data).toNat = packField (bytes.drop loc.off) 8 4 then some data
  else none

/-- Decompress a record to its raw length. -/
def storedPayloadExpand (loc : PackLoc) (data : Bytes) : Option Bytes :=
  match cfg.decompress loc.raw data with
  | none => none
  | some raw => if raw.length = loc.raw then some raw else none

/-- Read a record back, header and checksum checked. -/
def readVerifiedFd (bytes key : Bytes) (loc : PackLoc) : Option Bytes :=
  if storedHeaderRead bytes key loc then
    match storedPayloadRead cfg bytes key loc with
    | none => none
    | some data => if loc.fmt = 0 then some data else storedPayloadExpand cfg loc data
  else none

/-- `read_verified`: a segment without a file cannot be opened. -/
def readVerified (key : Bytes) (loc : PackLoc) : Option Bytes :=
  match p.segs.lookup loc.seg with
  | none => none
  | some bytes => readVerifiedFd cfg bytes key loc

/-- What `brix_cas_pack_get_fd` answers: the object's bytes, at the length the index has. -/
def getBytes (key : Bytes) : Option Bytes :=
  match p.tab.lookup key with
  | none => none
  | some (loc, _) => (p.readVerified cfg key loc).map (·.take loc.raw)

/-- `brix_cas_pack_has` -/
def has (key : Bytes) : Bool := (p.tab.lookup key).isSome

/-! ## Reaping -/

/-- The slots of a segment, as the reap's scan drops them. -/
def slotsOf (tab : PackTab) (seg : ℕ) : List (Σ _ : Bytes, PackLoc × UInt32) :=
  tab.entries.filter fun slot => slot.2.1.seg == seg

/-- The table without the slots of a segment. -/
def dropSlots (tab : PackTab) (seg : ℕ) : PackTab :=
  ⟨tab.entries.filter fun slot => !(slot.2.1.seg == seg), tab.nodupKeys.sublist List.filter_sublist⟩

/-- One turn of the reap loop: the oldest segment goes, with its slots and its file. -/
def dropSeg (h : p.segLo ≠ p.segHi) : CasPack :=
  { p with
    segs := p.segs.erase p.segLo
    tab := dropSlots p.tab p.segLo
    liveBytes := p.liveBytes - ((slotsOf p.tab p.segLo).map fun slot => (slot.2.1.stored : ℤ)).sum
    segLo := p.segLo + 1
    lo_le := Nat.lt_of_le_of_ne p.lo_le h }

/-- The loop of `reap_locked`, with the entries dropped so far. -/
def reapLoop (target : ℤ) (p : CasPack) (dropped : ℕ) : CasPack × ℕ :=
  if target < p.liveBytes then
    if h : p.segLo = p.segHi then
      if p.segOff = 0 then (p, dropped) else reapLoop target p.rollActive dropped
    else reapLoop target (p.dropSeg h) (dropped + (slotsOf p.tab p.segLo).length)
  else (p, dropped)
  termination_by 2 * (p.segHi - p.segLo) + if p.segOff = 0 then 0 else 3
  decreasing_by
    · rename_i hoff
      simp only [rollActive, if_neg hoff, if_true]
      omega
    · have hle := p.lo_le
      change 2 * (p.segHi - (p.segLo + 1)) + (if p.segOff = 0 then 0 else 3) < _
      omega

/-- The records `idx_compact` writes: one put for each live entry. -/
def putsOf (slots : List (Σ _ : Bytes, PackLoc × UInt32)) : List IdxRec :=
  slots.map fun slot => ⟨opPut, slot.1, slot.2.1⟩

/-- `idx_compact`: a new journal takes the place of the old one, or nothing changes. -/
def idxCompact : CasPack :=
  if io.compactFail then p
  else { p with idx := (idxFraming cfg.crc).encodeAll (putsOf (io.order p.tab.entries)) }

/-- Evict down to the target, then compact the journal if anything went. -/
def reapLocked (target : ℤ) : CasPack :=
  let loop := reapLoop target p 0
  if 0 < loop.2 then loop.1.idxCompact cfg io else loop.1

/-- The quota of `pack_put_commit` and `brix_cas_pack_enforce_quota`. -/
def enforceQuota : CasPack :=
  if 0 < cfg.quota ∧ cfg.quota < p.liveBytes then p.reapLocked cfg io (cfg.quota * 3 / 4) else p

/-! ## The calls -/

/-- `pack_payload_prepare`: compressed when tiering is on, the object is not
small, and it gets smaller. -/
def payloadPrepare (key data : Bytes) : SegRec :=
  let plain : SegRec := ⟨key, 0, data.length, data⟩
  if cfg.tiering && decide (64 ≤ data.length) then
    match cfg.compress data with
    | none => plain
    | some bytes => if bytes.length < data.length then ⟨key, 1, data.length, bytes⟩ else plain
  else plain

/-- `pack_put_commit`: append, journal, insert, and then the quota. -/
def putCommit (r : SegRec) : CasPack × ℤ :=
  match p.appendRecord cfg io r with
  | (q, none) => (q, -1)
  | (q, some loc) =>
    match q.idxAppend cfg io opPut r.key loc with
    | (q', false) => (q', -1)
    | (q', true) =>
      let q'' : CasPack :=
        { q' with
          tab := q'.tab.insert r.key (loc, 0)
          liveBytes := q'.liveBytes + r.data.length }
      (q''.enforceQuota cfg io, 0)

/-- `brix_cas_pack_put`: a live key is stored already. -/
def put (key data : Bytes) : CasPack × ℤ :=
  if key.length = 0 ∨ packKmax < key.length then (p, -1)
  else if (p.tab.lookup key).isSome then (p, 0)
  else p.putCommit cfg io (payloadPrepare cfg key data)

/-- The promotion in `brix_cas_pack_get_fd`: a raw copy is appended and journaled. -/
def promote (key : Bytes) (loc : PackLoc) (hits : UInt32) (raw : Bytes) : CasPack :=
  match p.appendRecord cfg io ⟨key, 0, loc.raw, raw.take loc.raw⟩ with
  | (q, none) => q
  | (q, some loc') =>
    match q.idxAppend cfg io opPut key loc' with
    | (q', false) => q'
    | (q', true) =>
      { q' with
        tab := q'.tab.insert key (loc', hits)
        liveBytes := q'.liveBytes + loc'.stored - loc.stored }

/-- `brix_cas_pack_get_fd` -/
def get (key : Bytes) : CasPack :=
  match p.tab.lookup key with
  | none => p
  | some (loc, hits) =>
    match p.readVerified cfg key loc with
    | none => p
    | some raw =>
      let q : CasPack := { p with tab := p.tab.insert key (loc, hits + 1) }
      if cfg.tiering && decide (loc.fmt = 1) && decide (4 ≤ hits + 1) then
        q.promote cfg io key loc (hits + 1) raw
      else q

/-- A slot becomes a tombstone, after a journal record that may not get written. -/
def drop (key : Bytes) (loc : PackLoc) : CasPack :=
  let q := (p.idxAppend cfg io opDel key loc).1
  { q with
    tab := q.tab.erase key
    liveBytes := q.liveBytes - loc.stored }

/-- `brix_cas_pack_del` -/
def del (key : Bytes) : CasPack × ℤ :=
  match p.tab.lookup key with
  | none => (p, -1)
  | some (loc, _) => (p.drop cfg io key loc, 0)

/-- `brix_cas_pack_reap` -/
def reap (target : ℤ) : CasPack := p.reapLocked cfg io target

/-- `brix_cas_pack_fsck`: every live slot that does not read back is dropped. -/
def fsck : CasPack :=
  (io.order p.tab.entries).foldl (fun q slot =>
    match q.readVerified cfg slot.1 slot.2.1 with
    | some _ => q
    | none => q.drop cfg io slot.1 slot.2.1) p

end CasPack

/-! ## Opening -/

/-- A segment number a directory scan finds: `scan_segments` reads eight digits. -/
def segVisible (seg : ℕ) : Bool := decide (seg < 100000000)

/-- `scan_segments`: the lowest and the highest number, 0 and 0 of none. -/
def scanSegments (names : List ℕ) : ℕ × ℕ :=
  match names.filter segVisible with
  | [] => (0, 0)
  | seg :: rest => (rest.foldl min seg, rest.foldl max seg)

theorem scanSegments_le (names : List ℕ) : (scanSegments names).1 ≤ (scanSegments names).2 := by
  have hmin : ∀ (l : List ℕ) (a : ℕ), l.foldl min a ≤ a := by
    intro l
    induction l with
    | nil => exact fun a => Nat.le_refl a
    | cons b l ih => exact fun a => Nat.le_trans (ih (min a b)) (Nat.min_le_left a b)
  have hmax : ∀ (l : List ℕ) (a : ℕ), a ≤ l.foldl max a := by
    intro l
    induction l with
    | nil => exact fun a => Nat.le_refl a
    | cons b l ih => exact fun a => Nat.le_trans (Nat.le_max_left a b) (ih (max a b))
  rw [scanSegments]
  split
  · exact Nat.le_refl 0
  · rename_i seg rest heq
    exact Nat.le_trans (hmin rest seg) (hmax rest seg)

/-- The index being rebuilt: the table, its live bytes and the high-water mark. -/
structure Replay : Type where
  tab : PackTab
  liveBytes : ℤ
  highWater : ℕ

namespace Replay

variable (s : Replay)

/-- `replay_put`, and the table part of `tail_record_adopt`: a slot found keeps
its hits. -/
def put (key : Bytes) (loc : PackLoc) : Replay :=
  match s.tab.lookup key with
  | none =>
    { s with
      tab := s.tab.insert key (loc, 0)
      liveBytes := s.liveBytes + loc.stored }
  | some (old, hits) =>
    { s with
      tab := s.tab.insert key (loc, hits)
      liveBytes := s.liveBytes - old.stored + loc.stored }

/-- `replay_delete` -/
def delete (key : Bytes) : Replay :=
  match s.tab.lookup key with
  | none => s
  | some (old, _) =>
    { s with
      tab := s.tab.erase key
      liveBytes := s.liveBytes - old.stored }

/-- The records `replay_apply` does not ignore. -/
def applies (segLo segHi : ℕ) (segSize : ℕ → ℕ) (r : IdxRec) : Bool :=
  !(decide (r.loc.seg < segLo) || decide (segHi < r.loc.seg) || decide (segSize r.loc.seg < r.fin))

/-- The high-water mark moves to the end of a record of the active segment. -/
def advance (segHi : ℕ) (r : IdxRec) : Replay :=
  if r.loc.seg = segHi ∧ s.highWater < r.fin then { s with highWater := r.fin } else s

/-- The record's operation. -/
def dispatch (r : IdxRec) : Replay :=
  if r.op = opPut then s.put r.key r.loc
  else if r.op = opDel then s.delete r.key
  else s

/-- `replay_apply` -/
def apply (segLo segHi : ℕ) (segSize : ℕ → ℕ) (r : IdxRec) : Replay :=
  if applies segLo segHi segSize r then (s.advance segHi r).dispatch r else s

/-- `replay`'s loop, from an empty index. -/
def ofJournal (segLo segHi : ℕ) (segSize : ℕ → ℕ) (journal : List IdxRec) : Replay :=
  journal.foldl (fun s r => apply s segLo segHi segSize r) ⟨∅, 0, 0⟩

end Replay

namespace PackDisk

variable (cfg : PackCfg) (d : PackDisk)

/-- The bytes of a segment file; none where there is no file. -/
def segBytes (seg : ℕ) : Bytes := (d.segs.lookup seg).getD []

/-- `replay`: the index the journal amounts to, and the journal up to its last
good record. -/
def replay (segLo segHi : ℕ) : Replay × Bytes :=
  let scan := (idxFraming cfg.crc).scan d.idx
  (.ofJournal segLo segHi (fun seg => (d.segBytes seg).length) scan.1,
    d.idx.take (d.idx.length - scan.2.length))

/-- The journal records of the tail records, which stand from `off` on. -/
def adopted (seg : ℕ) : ℕ → List SegRec → List IdxRec
  | _, [] => []
  | off, r :: rs =>
    ⟨opPut, r.key, ⟨seg, off, r.fmt, r.data.length, r.raw⟩⟩ ::
      adopted seg (off + (r.encode cfg.crc).length) rs

/-- `brix_cas_pack_open`: the journal is replayed, and the whole records after
the high-water mark of the active segment are adopted. -/
def openPack : CasPack :=
  let segLo := (scanSegments d.segs.keys).1
  let segHi := (scanSegments d.segs.keys).2
  let index := d.replay cfg segLo segHi
  let hwm := index.1.highWater
  let active := d.segBytes segHi
  let tail := (segFraming cfg.crc).scan (active.drop hwm)
  let records := adopted cfg segHi hwm tail.1
  let s := records.foldl (fun s r => s.put r.key r.loc) index.1
  let off := hwm + ((active.drop hwm).length - tail.2.length)
  { segs := d.segs.insert segHi (active.take off)
    idx := index.2 ++ (idxFraming cfg.crc).encodeAll records
    tab := s.tab
    segLo := segLo
    segHi := segHi
    segOff := off
    liveBytes := s.liveBytes
    lo_le := scanSegments_le d.segs.keys }

def empty : PackDisk := ⟨∅, []⟩

/-- What a crash leaves: the journal and the active segment cut at any byte. -/
def cut (segHi : ℕ) (idxLen segLen : ℕ) : PackDisk :=
  { segs := d.segs.insert segHi ((d.segBytes segHi).take segLen)
    idx := d.idx.take idxLen }

end PackDisk

/-- Close, and open again. -/
def CasPack.reopen (cfg : PackCfg) (p : CasPack) : CasPack := p.toPackDisk.openPack cfg

end BrixCache
