import BrixCache.Cache.Cinfo
import BrixCache.Lib.Run

/-!
# Storing a header back

`brix_cstore_cinfo_load` and `brix_cstore_cinfo_store` of `fs/cache/cstore.c` in
`LOCAL` mode, against the path-based writers of the same record. A load may be
answered by the worker's header cache; a store reads the present bitmap, builds
a whole record from the header and saves it, without the path's lock.

The state carries a second record, the shadow: what the writers alone would have
made of the prior record. Nothing is lost as long as the two agree on what a
header does not own.
-/

namespace BrixCache

/-! ## Load and store -/

/-- The bitmap `brix_cstore_cinfo_store` preserves: the recorded one, if it has
the length the header's block count asks for. -/
def cstoreReadBitmap (rec : Option Xmeta) (ci : Cinfo) : Option (List UInt8) :=
  match cinfoLoad rec with
  | .error _ => none
  | .ok (_, bitmap) =>
    if (bitmap.map List.length).getD 0 = xmetaBitmapLen ci.nblocks then bitmap else none

/-- `brix_cache_cinfo_set_expires` -/
def cinfoSetExpires (ci : Cinfo) (at_ : UInt64) : Cinfo :=
  { ci with expiresAt := at_, flags := { ci.flags with expires := true } }

/-- The validity key a header's record is made for. -/
def Cinfo.key (ci : Cinfo) : CinfoKey :=
  ⟨ci.size, if ci.blockSize ≠ 0 then ci.blockSize else cacheDirtyBlock, ci.mtime⟩

/-! ## What a header store must keep -/

/-- The parts of a record that are not the header's to change. -/
structure CinfoKept : Type where
  fileSize : Int64
  bufferSize : Int64
  originMtime : UInt64
  nblocks : UInt64
  bitmap : List UInt8
  dirtyLo : UInt64
  dirtyHi : UInt64
  digests : Option (List UInt8)
  /-- the BLOCKCRC table, when the record tracks one -/
  blockcrc : Option (List UInt32)
  deriving DecidableEq

def Xmeta.kept (m : Xmeta) : CinfoKept :=
  { fileSize := m.fileSize, bufferSize := m.bufferSize, originMtime := m.originMtime,
    nblocks := m.nblocks, bitmap := m.bitmap, dirtyLo := m.dirtyLo, dirtyHi := m.dirtyHi,
    digests := m.digests, blockcrc := if m.hasBlockcrc then m.blockcrc else none }

/-! ## The system -/

/-- One path's record, the writers of it, and a worker that loads and stores its
header. -/
structure HeaderState : Type where
  slot : Xmeta
  /-- the record without the header stores -/
  shadow : Xmeta
  /-- the writer that holds the path's lock: what it will save of the one record,
  and would save of the other -/
  writer : Option (Xmeta × Xmeta)
  /-- the worker's cached header -/
  l1 : Option Cinfo
  hand : Option Cinfo
  /-- the bitmap a store in progress has read -/
  bits : Option (Option (List UInt8))

/-- A step, with the time it reads. -/
inductive HeaderAct : Type where
  /-- another worker's `brix_cache_cinfo_record_block`, up to its save -/
  | recordBlock (now : Int64) (key : CinfoKey) (mode : UInt32) (blk : UInt64) : HeaderAct
  /-- another worker's `brix_cache_cinfo_mark_dirty`, up to its save -/
  | markDirty (now : Int64) (key : CinfoKey) (off len : UInt64) : HeaderAct
  /-- that worker's save -/
  | finish : HeaderAct
  /-- `brix_cstore_cinfo_load` -/
  | load : HeaderAct
  /-- the header cache forgets its entry -/
  | dropL1 : HeaderAct
  | touch (accessCount bytesServed lastAccess : UInt64) : HeaderAct
  /-- a new expiry -/
  | expire (time : UInt64) : HeaderAct
  /-- the first half of `brix_cstore_cinfo_store`: reading the bitmap -/
  | beginStore : HeaderAct
  /-- the second half, when it succeeds: mapping and saving -/
  | save (now : Int64) : HeaderAct
  /-- a call that saves nothing -/
  | failed : HeaderAct

/-- What a writer saves of a record, or leaves of it when it fails. -/
def applyWriter (r : Except NgxRc Xmeta) (m : Xmeta) : Xmeta :=
  match r with
  | .ok m' => m'.persisted
  | .error _ => m

/-- One step. The writers exclude each other by the path's lock; the header
store takes no lock. -/
inductive HeaderStep : HeaderState → HeaderAct → HeaderState → Prop where
  | recordBlock {s : HeaderState} {now : Int64} {key : CinfoKey} {mode : UInt32} {blk : UInt64}
      {m : Xmeta} (hlock : s.writer = none)
      (hok : cinfoRecordBlock now (some s.slot) key mode blk = .ok m) :
      HeaderStep s (.recordBlock now key mode blk)
        { s with writer := some (m.persisted,
            applyWriter (cinfoRecordBlock now (some s.shadow) key mode blk) s.shadow) }
  | markDirty {s : HeaderState} {now : Int64} {key : CinfoKey} {off len : UInt64} {m : Xmeta}
      (hlock : s.writer = none) (hok : cinfoMarkDirty now (some s.slot) key off len = .ok m) :
      HeaderStep s (.markDirty now key off len)
        { s with writer := some (m.persisted,
            applyWriter (cinfoMarkDirty now (some s.shadow) key off len) s.shadow) }
  | finish {s : HeaderState} {m sh : Xmeta} (hlock : s.writer = some (m, sh)) :
      HeaderStep s .finish { s with slot := m, shadow := sh, writer := none }
  | loadHit {s : HeaderState} {ci : Cinfo} (hhit : s.l1 = some ci) :
      HeaderStep s .load { s with hand := some ci, bits := none }
  | loadMiss {s : HeaderState} (hmiss : s.l1 = none) :
      HeaderStep s .load
        { s with
          hand := some (cinfoFromXmeta s.slot), l1 := some (cinfoFromXmeta s.slot), bits := none }
  | dropL1 (s : HeaderState) : HeaderStep s .dropL1 { s with l1 := none }
  | touch {s : HeaderState} {ci : Cinfo} (hhand : s.hand = some ci) (hidle : s.bits = none)
      (accessCount bytesServed lastAccess : UInt64) :
      HeaderStep s (.touch accessCount bytesServed lastAccess)
        { s with hand := some { ci with
          accessCount := accessCount, bytesServed := bytesServed, lastAccess := lastAccess } }
  | expire {s : HeaderState} {ci : Cinfo} (hhand : s.hand = some ci) (hidle : s.bits = none)
      (time : UInt64) :
      HeaderStep s (.expire time) { s with hand := some (cinfoSetExpires ci time) }
  | beginStore {s : HeaderState} {ci : Cinfo} (hhand : s.hand = some ci) (hidle : s.bits = none) :
      HeaderStep s .beginStore { s with bits := some (cstoreReadBitmap (some s.slot) ci) }
  | save {s : HeaderState} {ci : Cinfo} {bits : Option (List UInt8)} {now : Int64} {m : Xmeta}
      (hhand : s.hand = some ci) (hbits : s.bits = some bits)
      (hmap : cinfoToXmeta now ci bits = .ok m) :
      HeaderStep s (.save now)
        { s with slot := m.persisted, l1 := some ci, hand := none, bits := none }
  | failed (s : HeaderState) : HeaderStep s .failed { s with hand := none, bits := none }

/-- The record keeps the bitmap, the dirty extent, the digests and the block
checksums it would have without the header stores. -/
def HeaderKept (s : HeaderState) : Prop := s.slot.kept = s.shadow.kept

/-- The saves that go right: the record of that moment has nothing a header has
no room for, the header is for the same file and has the same dirty extent, and
the bitmap that was read is still the record's. -/
def HeaderGood (s : HeaderState) : HeaderAct → Prop
  | .save _ => ∀ ci bits, s.hand = some ci → s.bits = some bits →
      s.slot.digests = none ∧ s.slot.kept.blockcrc = none ∧
      cinfoMatches s.slot ci.key = true ∧
      ci.dirtyLo = s.slot.dirtyLo ∧ ci.dirtyHi = s.slot.dirtyHi ∧
      cinfoStoreBitmap ci.flags.complete bits (xmetaBitmapLen s.slot.nblocks) = s.slot.bitmap
  | _ => True

/-- The start: a record with a STATE section, as every writer of this code saves
it, and a worker that has done nothing yet. -/
structure HeaderState.Init (s : HeaderState) : Prop where
  shadow : s.shadow = s.slot
  haveState : s.slot.haveState = true
  nblocks : s.slot.nblocks = xmetaNblocks s.slot.fileSize s.slot.bufferSize
  writer : s.writer = none

/-! ## Records that agree -/

/-- A record with a STATE section and the block count of its file. -/
def Xmeta.Sound (m : Xmeta) : Prop :=
  m.haveState = true ∧ m.nblocks = xmetaNblocks m.fileSize m.bufferSize

variable {m a b : Xmeta} {key : CinfoKey} {now : Int64}

theorem Xmeta.Sound.persisted (h : m.Sound) : m.persisted.Sound := h

/-- Two sound records that agree on what is not a header's. -/
structure Agree (a b : Xmeta) : Prop where
  left : a.Sound
  right : b.Sound
  kept : a.kept = b.kept

theorem Xmeta.kept_persisted (h : m.haveState = true) :
    m.persisted.kept = m.kept := by
  have hstate : m.persisted.toXmetaState = m.toXmetaState := if_pos h
  have hmtime : m.persisted.originMtime = m.originMtime := congrArg XmetaState.originMtime hstate
  have hlo : m.persisted.dirtyLo = m.dirtyLo := congrArg XmetaState.dirtyLo hstate
  have hhi : m.persisted.dirtyHi = m.dirtyHi := congrArg XmetaState.dirtyHi hstate
  have htable : (if m.persisted.hasBlockcrc then m.persisted.blockcrc else none) =
      if m.hasBlockcrc then m.blockcrc else none := by
    have hhas : m.persisted.hasBlockcrc = m.hasBlockcrc := by
      calc m.persisted.hasBlockcrc
          = (m.hasBlockcrc && (if m.hasBlockcrc then m.blockcrc else none).isSome) := rfl
        _ = m.hasBlockcrc := by
          rcases hh : m.hasBlockcrc with _ | _
          · rfl
          · rw [Xmeta.hasBlockcrc, Bool.and_eq_true] at hh
            rw [if_pos rfl, hh.2, Bool.and_self]
    rw [hhas]
    rcases hh : m.hasBlockcrc with _ | _
    · rfl
    · have htab : m.persisted.blockcrc = m.blockcrc := if_pos hh
      rw [htab]
  rw [Xmeta.kept, Xmeta.kept, htable, hmtime, hlo, hhi]
  rfl

theorem Agree.persisted (h : Agree a b) : Agree a.persisted b.persisted := by
  refine ⟨h.left.persisted, h.right.persisted, ?_⟩
  rw [Xmeta.kept_persisted h.left.1, Xmeta.kept_persisted h.right.1]
  exact h.kept

theorem Agree.matches (h : Agree a b) (key : CinfoKey) :
    cinfoMatches a key = cinfoMatches b key := by
  have hf : a.fileSize = b.fileSize := congrArg CinfoKept.fileSize h.kept
  have hb : a.bufferSize = b.bufferSize := congrArg CinfoKept.bufferSize h.kept
  have hm : a.originMtime = b.originMtime := congrArg CinfoKept.originMtime h.kept
  rw [cinfoMatches, cinfoMatches, hf, hb, hm]

theorem Agree.rmwLoad (h : Agree a b) (hok : cinfoRmwLoad now (some a) key = .ok m) :
    ∃ m', cinfoRmwLoad now (some b) key = .ok m' ∧ Agree m m' := by
  rw [cinfoRmwLoad] at hok ⊢
  rw [← h.matches key]
  rcases hm : cinfoMatches a key with _ | _
  · rw [hm, if_neg Bool.false_ne_true] at hok
    rw [if_neg Bool.false_ne_true]
    obtain ⟨-, -, -, hnb, hstate, -⟩ := cinfoToXmeta_eq_ok hok
    exact ⟨m, hok, ⟨hstate, hnb⟩, ⟨hstate, hnb⟩, rfl⟩
  · rw [hm, if_pos rfl] at hok
    cases hok
    rw [if_pos rfl]
    exact ⟨b, rfl, h⟩

theorem Agree.withMode (h : Agree a b) (mode : UInt32) :
    Agree { a with mode := if mode ≠ 0 then mode else a.mode }
      { b with mode := if mode ≠ 0 then mode else b.mode } :=
  ⟨h.left, h.right, h.kept⟩

theorem Agree.blockSet (h : Agree a b) (i : ℕ) :
    Agree (a.blockSet i) (b.blockSet i) := by
  have hn : a.nblocks = b.nblocks := congrArg CinfoKept.nblocks h.kept
  rcases Nat.lt_or_ge i b.nblocks.toNat with hin | hout
  · rw [b.blockSet_of_lt hin, a.blockSet_of_lt (by rw [hn]; exact hin)]
    refine ⟨h.left, h.right, ?_⟩
    exact congrArg (fun k : CinfoKept => { k with bitmap := Bitmap.set k.bitmap i }) h.kept
  · rw [b.blockSet_of_le hout, a.blockSet_of_le (by rw [hn]; exact hout)]
    exact h

theorem Agree.recordBlock (h : Agree a b)
    {mode : UInt32} {blk : UInt64} (hok : cinfoRecordBlock now (some a) key mode blk = .ok m) :
    ∃ m', cinfoRecordBlock now (some b) key mode blk = .ok m' ∧ Agree m m' := by
  rw [cinfoRecordBlock] at hok ⊢
  by_cases hz : key.blockSize = 0
  · rw [if_pos hz] at hok
    cases hok
  · rw [if_neg hz] at hok ⊢
    by_cases hr : cinfoNblocks key.size key.blockSize ≤ blk
    · rw [if_pos hr] at hok
      cases hok
    · rw [if_neg hr] at hok ⊢
      rcases hload : cinfoRmwLoad now (some a) key with e | x
      · rw [hload] at hok
        cases hok
      · rw [hload] at hok
        obtain ⟨y, hy, hxy⟩ := h.rmwLoad hload
        cases hok
        rw [hy]
        exact ⟨_, rfl, (hxy.withMode mode).blockSet blk.toNat⟩

theorem Agree.markDirty (h : Agree a b)
    {off len : UInt64} (hok : cinfoMarkDirty now (some a) key off len = .ok m) :
    ∃ m', cinfoMarkDirty now (some b) key off len = .ok m' ∧ Agree m m' := by
  rw [cinfoMarkDirty] at hok ⊢
  by_cases hbad : key.blockSize = 0 ∨ len = 0
  · rw [if_pos hbad] at hok
    cases hok
  · rw [if_neg hbad] at hok ⊢
    rcases hload : cinfoRmwLoad now (some a) key with e | x
    · rw [hload] at hok
      cases hok
    · rw [hload] at hok
      obtain ⟨y, hy, hxy⟩ := h.rmwLoad hload
      cases hok
      rw [hy]
      refine ⟨_, rfl, ?_⟩
      have hlo : x.dirtyLo = y.dirtyLo := congrArg CinfoKept.dirtyLo hxy.kept
      have hhi : x.dirtyHi = y.dirtyHi := congrArg CinfoKept.dirtyHi hxy.kept
      rw [hlo, hhi]
      by_cases hclean : y.dirtyHi ≤ y.dirtyLo
      · rw [if_pos hclean, if_pos hclean]
        refine ⟨hxy.left, hxy.right, ?_⟩
        exact congrArg (fun k : CinfoKept => { k with dirtyLo := off, dirtyHi := off + len })
          hxy.kept
      · rw [if_neg hclean, if_neg hclean]
        refine ⟨hxy.left, hxy.right, ?_⟩
        exact congrArg (fun k : CinfoKept =>
          { k with
            dirtyLo := if off < y.dirtyLo then off else y.dirtyLo
            dirtyHi := if y.dirtyHi < off + len then off + len else y.dirtyHi }) hxy.kept

/-! ## The invariant -/

/-- What good steps keep: the two records agree, and so does what the writer
holding the lock will make of them. -/
structure HeaderInv (s : HeaderState) : Prop where
  agree : Agree s.slot s.shadow
  writer : ∀ m sh, s.writer = some (m, sh) → Agree m sh

variable {s s' : HeaderState} {a : HeaderAct}

theorem HeaderState.Init.inv (h : s.Init) : HeaderInv s := by
  refine ⟨?_, ?_⟩
  · rw [h.shadow]
    exact ⟨⟨h.haveState, h.nblocks⟩, ⟨h.haveState, h.nblocks⟩, rfl⟩
  · intro m sh hw
    rw [h.writer] at hw
    cases hw

theorem cinfoToXmeta_kept {ci : Cinfo} {bits : Option (List UInt8)}
    (hmap : cinfoToXmeta now ci bits = .ok m) :
    m.Sound ∧ cinfoMatches m ci.key = true ∧ m.kept.digests = none ∧ m.kept.blockcrc = none ∧
      m.kept.dirtyLo = ci.dirtyLo ∧ m.kept.dirtyHi = ci.dirtyHi ∧
      m.kept.bitmap = cinfoStoreBitmap ci.flags.complete bits (xmetaBitmapLen m.nblocks) := by
  obtain ⟨-, -, -, hnb, hstate, hsize, hbs, hmtime, hlo, hhi, hbm, hcrc, hdig⟩ :=
    cinfoToXmeta_eq_ok hmap
  have hsize' : m.fileSize.toUInt64 = ci.size := by
    rw [hsize]
    exact UInt64.toUInt64_toInt64 ci.size
  have hgran : m.bufferSize.toUInt64 =
      (if ci.blockSize ≠ 0 then ci.blockSize else cacheDirtyBlock).toUInt64 := by
    rw [hbs]
    exact UInt64.toUInt64_toInt64 _
  have hhas : m.hasBlockcrc = false := by
    rw [Xmeta.hasBlockcrc, hcrc, Bool.false_and]
  refine ⟨⟨hstate, hnb⟩, ?_, hdig, ?_, hlo, hhi, hbm⟩
  · rw [cinfoMatches, Bool.and_eq_true, Bool.and_eq_true, decide_eq_true_eq, decide_eq_true_eq,
      decide_eq_true_eq]
    exact ⟨⟨hsize', hgran⟩, hmtime⟩
  · exact if_neg (by rw [hhas]; exact Bool.false_ne_true)

theorem kept_geometry_of_matches {x y : Xmeta}
    (hx : cinfoMatches x key = true) (hy : cinfoMatches y key = true) :
    x.fileSize = y.fileSize ∧ x.bufferSize = y.bufferSize ∧ x.originMtime = y.originMtime := by
  rw [cinfoMatches, Bool.and_eq_true, Bool.and_eq_true, decide_eq_true_eq, decide_eq_true_eq,
    decide_eq_true_eq] at hx hy
  obtain ⟨⟨hxf, hxb⟩, hxm⟩ := hx
  obtain ⟨⟨hyf, hyb⟩, hym⟩ := hy
  have hinj : ∀ i j : Int64, i.toUInt64 = j.toUInt64 → i = j := by
    intro i j hij
    rw [← Int64.toInt64_toUInt64 i, hij, Int64.toInt64_toUInt64]
  exact ⟨hinj _ _ (hxf.trans hyf.symm), hinj _ _ (hxb.trans hyb.symm), hxm.trans hym.symm⟩

/-- A save keeps the record exactly if it meets the condition. -/
theorem save_kept_iff (h : Agree s.slot s.shadow) {ci : Cinfo} {bits : Option (List UInt8)}
    (hhand : s.hand = some ci) (hbits : s.bits = some bits)
    (hmap : cinfoToXmeta now ci bits = .ok m) :
    m.kept = s.shadow.kept ↔ HeaderGood s (.save now) := by
  obtain ⟨hsound, hmatch, hdig, hcrc, hlo, hhi, hbm⟩ := cinfoToXmeta_kept hmap
  rw [← h.kept]
  constructor
  · intro hkept ci' bits' hhand' hbits'
    rw [hhand] at hhand'
    rw [hbits] at hbits'
    cases hhand'
    cases hbits'
    have hagree : Agree m s.slot := ⟨hsound, h.left, hkept⟩
    have hn : m.nblocks = s.slot.nblocks := congrArg CinfoKept.nblocks hkept
    rw [hn] at hbm
    refine ⟨?_, ?_, ?_, ?_, ?_, ?_⟩
    · exact (congrArg CinfoKept.digests hkept).symm.trans hdig
    · rw [← hkept]
      exact hcrc
    · rw [← hagree.matches]
      exact hmatch
    · exact hlo.symm.trans (congrArg CinfoKept.dirtyLo hkept)
    · exact hhi.symm.trans (congrArg CinfoKept.dirtyHi hkept)
    · exact hbm.symm.trans (congrArg CinfoKept.bitmap hkept)
  · intro hgood
    obtain ⟨hdig', hcrc', hmatch', hlo', hhi', hbm'⟩ := hgood ci bits hhand hbits
    obtain ⟨hf, hb, hm⟩ := kept_geometry_of_matches hmatch hmatch'
    have hn : m.nblocks = s.slot.nblocks := by
      rw [hsound.2, h.left.2, hf, hb]
    rw [hn, hbm'] at hbm
    have heta : ∀ k k' : CinfoKept, k.fileSize = k'.fileSize → k.bufferSize = k'.bufferSize →
        k.originMtime = k'.originMtime → k.nblocks = k'.nblocks → k.bitmap = k'.bitmap →
        k.dirtyLo = k'.dirtyLo → k.dirtyHi = k'.dirtyHi → k.digests = k'.digests →
        k.blockcrc = k'.blockcrc → k = k' := by
      rintro ⟨_, _, _, _, _, _, _, _, _⟩ ⟨_, _, _, _, _, _, _, _, _⟩ rfl rfl rfl rfl rfl rfl rfl rfl rfl
      rfl
    exact heta _ _ hf hb hm hn hbm (hlo.trans hlo') (hhi.trans hhi') (hdig.trans hdig'.symm)
      (hcrc.trans hcrc'.symm)

theorem applyWriter_ok (m x : Xmeta) : applyWriter (.ok m) x = m.persisted := rfl

theorem HeaderInv.step (h : HeaderInv s) (hstep : HeaderStep s a s') (hgood : HeaderGood s a) :
    HeaderInv s' := by
  cases hstep with
  | recordBlock hlock hok =>
    obtain ⟨m', hok', hagree⟩ := h.agree.recordBlock hok
    refine ⟨h.agree, ?_⟩
    intro m sh hw
    rw [hok', applyWriter_ok] at hw
    obtain ⟨rfl, rfl⟩ := Prod.mk.inj (Option.some.inj hw)
    exact hagree.persisted
  | markDirty hlock hok =>
    obtain ⟨m', hok', hagree⟩ := h.agree.markDirty hok
    refine ⟨h.agree, ?_⟩
    intro m sh hw
    rw [hok', applyWriter_ok] at hw
    obtain ⟨rfl, rfl⟩ := Prod.mk.inj (Option.some.inj hw)
    exact hagree.persisted
  | finish hlock =>
    refine ⟨h.writer _ _ hlock, ?_⟩
    rintro m sh ⟨⟩
  | loadHit | loadMiss | dropL1 | touch | expire | beginStore | failed => exact ⟨h.agree, h.writer⟩
  | save hhand hbits hmap =>
    have hkept := (save_kept_iff h.agree hhand hbits hmap).mpr hgood
    obtain ⟨hsound, -⟩ := cinfoToXmeta_kept hmap
    refine ⟨⟨hsound.persisted, h.agree.right, ?_⟩, h.writer⟩
    rw [Xmeta.kept_persisted hsound.1]
    exact hkept

theorem HeaderInv.not_kept (h : HeaderInv s) (hstep : HeaderStep s a s')
    (hbad : ¬ HeaderGood s a) : ¬ HeaderKept s' := by
  intro hkept
  cases hstep with
  | save hhand hbits hmap =>
    obtain ⟨hsound, -⟩ := cinfoToXmeta_kept hmap
    rw [HeaderKept, Xmeta.kept_persisted hsound.1] at hkept
    exact hbad ((save_kept_iff h.agree hhand hbits hmap).mp hkept)
  | _ => exact hbad trivial

/-! ## Runs -/

/-- The system restricted to good steps. -/
def HeaderGoodStep (s : HeaderState) (a : HeaderAct) (s' : HeaderState) : Prop :=
  HeaderStep s a s' ∧ HeaderGood s a

/-- **When header stores lose nothing.** In every run of good steps the record
keeps the present bitmap, the dirty extent, the digest list and the block
checksums the writers alone would have left; and the first save that is not
good loses one of them. -/
theorem headerKept_iff_good {s₀ : HeaderState} {as : List HeaderAct} (hinit : s₀.Init)
    (hrun : Run HeaderGoodStep s₀ as s) :
    HeaderKept s ∧ ∀ a s', HeaderStep s a s' → (HeaderKept s' ↔ HeaderGood s a) := by
  have hinv := hrun.invariant (fun _ _ _ h hstep => h.step hstep.1 hstep.2) hinit.inv
  refine ⟨hinv.agree.kept, fun a s' hstep => ⟨?_, fun hgood => (hinv.step hstep hgood).agree.kept⟩⟩
  intro hkept
  exact Classical.byContradiction fun hbad => hinv.not_kept hstep hbad hkept

/-- A path whose record has digests and block checksums. -/
def sampleHeaderState (m : Xmeta) : HeaderState := ⟨m, m, none, none, none, none⟩

/-- The sample record without the sections a header has no room for. -/
def plainXmeta : Xmeta := { sampleXmeta with digests := none, blockcrc := none }

theorem sampleHeaderState_init (hs : m.haveState = true)
    (hn : m.nblocks = xmetaNblocks m.fileSize m.bufferSize) : (sampleHeaderState m).Init :=
  ⟨rfl, hs, hn, rfl⟩

theorem headerKept_iff_good_sample :
    ∃ s, Run HeaderGoodStep (sampleHeaderState plainXmeta)
        [.recordBlock 0 ⟨5, 2, 0⟩ 0 1, .finish, .load, .touch 9 9 9, .beginStore, .save 1] s ∧
      HeaderKept s ∧ ∀ a s', HeaderStep s a s' → (HeaderKept s' ↔ HeaderGood s a) := by
  have hrun : ∃ s, Run HeaderGoodStep (sampleHeaderState plainXmeta)
      [.recordBlock 0 ⟨5, 2, 0⟩ 0 1, .finish, .load, .touch 9 9 9, .beginStore, .save 1] s := by
    refine ⟨_, .cons ⟨.recordBlock rfl rfl, trivial⟩ (.cons ⟨.finish rfl, trivial⟩
      (.cons ⟨.loadMiss rfl, trivial⟩ (.cons ⟨.touch rfl rfl 9 9 9, trivial⟩
        (.cons ⟨.beginStore rfl rfl, trivial⟩ (.cons ⟨.save rfl rfl rfl, ?_⟩ (.nil _))))))⟩
    intro ci bits hci hbits
    cases hci
    cases hbits
    exact ⟨rfl, rfl, rfl, rfl, rfl, rfl⟩
  obtain ⟨s, hs⟩ := hrun
  exact ⟨s, hs, headerKept_iff_good (sampleHeaderState_init rfl (by decide)) hs⟩

/-- Loading a header, touching its statistics and storing it back drops the
record's digests and block checksums; storing back a header cached before a
range was marked dirty makes the record clean. -/
theorem header_store_drops_digests_and_dirty :
    (∃ s, Run HeaderStep (sampleHeaderState sampleXmeta)
        [.load, .touch 9 9 9, .beginStore, .save 1] s ∧
      s.shadow.digests = some [1, 2, 3] ∧ s.slot.digests = none ∧
      s.shadow.kept.blockcrc = some [10, 11, 12] ∧ s.slot.kept.blockcrc = none ∧
      ¬ HeaderKept s) ∧
    ∃ s, Run HeaderStep (sampleHeaderState { plainXmeta with dirtyLo := 0, dirtyHi := 0 })
        [.load, .markDirty 0 ⟨5, 2, 0⟩ 1 3, .finish, .load, .beginStore, .save 1] s ∧
      s.shadow.dirtyLo = 1 ∧ s.shadow.dirtyHi = 4 ∧ s.slot.dirtyLo = 0 ∧ s.slot.dirtyHi = 0 ∧
      ¬ HeaderKept s := by
  refine ⟨⟨_, .cons (.loadMiss rfl) (.cons (.touch rfl rfl 9 9 9) (.cons (.beginStore rfl rfl)
    (.cons (.save rfl rfl rfl) (.nil _)))), rfl, rfl, rfl, rfl, ?_⟩,
    ⟨_, .cons (.loadMiss rfl) (.cons (.markDirty rfl rfl) (.cons (.finish rfl)
      (.cons (.loadHit rfl) (.cons (.beginStore rfl rfl) (.cons (.save rfl rfl rfl) (.nil _)))))),
      rfl, rfl, rfl, rfl, ?_⟩⟩
  · intro hkept
    exact absurd (congrArg CinfoKept.digests hkept) (by decide)
  · intro hkept
    exact absurd (congrArg CinfoKept.dirtyHi hkept) (by decide)

end BrixCache
