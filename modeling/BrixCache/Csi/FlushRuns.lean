import BrixCache.Csi.Verify
import BrixCache.Lib.Run
import BrixCache.Core.Ascii

/-!
# What a flush vouches for

A record is sound for a file when every slot of its table is unset or the
checksum of its block; a read of the file's own bytes never fails against a
sound record. A flush saves, for each block it went over, what the handle folded
or what it read back.
-/

namespace BrixCache

open List

/-! ## Sound records -/

/-- A record with checksums whose geometry is sound -/
structure CsiRecord (m : Xmeta) : Prop where
  nonneg : 0 ≤ m.fileSize
  granule_pos : 0 < m.bufferSize
  nblocks : m.nblocks = xmetaNblocks m.fileSize m.bufferSize
  table : ∀ crcs, m.blockcrc = some crcs → crcs.length = m.nblocks.toNat

/-- Every slot vouches for its block, or for nothing. -/
structure CsiSound (file : Bytes) (m : Xmeta) : Prop where
  size : m.size = file.length
  slots : ∀ crcs, m.blockcrc = some crcs → ∀ b x, crcs[b]? = some x →
    x = xmetaCrcUnset ∨ x = crc32cValue (csiBlock file m.granule b)

variable {file : Bytes} {m : Xmeta}

theorem csiBlock_eq (hsize : m.size = file.length) (b : ℕ) :
    File.pread file (b * m.granule) (min (b * m.granule + m.granule) m.size - b * m.granule) =
      csiBlock file m.granule b := by
  rw [csiBlock, ← File.pread_min file (b * m.granule) m.granule, hsize]
  congr 1
  omega

/-- True checksums never fail a read of the file's bytes. -/
theorem csiVerifyBlocks_ne_mismatch (h : CsiSound file m) (c : Csi) {crcs : List UInt32}
    (hcrcs : m.blockcrc = some crcs) (off len n b : ℕ) (hb : off ≤ b * m.granule) :
    csiVerifyBlocks c m crcs (File.pread file off len) off n b ≠ .mismatch := by
  induction n generalizing b with
  | zero => rintro ⟨⟩
  | succ n ih =>
    have hnext := ih (b + 1) (by rw [Nat.succ_mul]; omega)
    rw [csiVerifyBlocks]
    by_cases hend : off + (File.pread file off len).length <
        min (b * m.granule + m.granule) m.size
    · rw [if_pos hend]
      rintro ⟨⟩
    rw [if_neg hend]
    split
    · exact hnext
    split
    · exact hnext
    rename_i hset
    -- a set slot has the checksum of the very bytes that were read
    have hread : File.pread (File.pread file off len) (b * m.granule - off)
        (min (b * m.granule + m.granule) m.size - b * m.granule) =
          csiBlock file m.granule b := by
      rcases Nat.le_total m.size (b * m.granule) with hpast | hin
      · have hzero : min (b * m.granule + m.granule) m.size - b * m.granule = 0 := by omega
        rw [← csiBlock_eq h.size, hzero, File.pread, take_zero]
        rfl
      · have hlen := File.length_pread file off len
        rw [File.pread_pread _ _ (by omega), Nat.add_sub_cancel' hb, csiBlock_eq h.size]
    have hslot : crcs[b]? = some (crcs.getD b 0) := by
      rw [getD_eq_getElem?_getD] at hset ⊢
      rcases hget : crcs[b]? with _ | x
      · rw [hget] at hset
        exact absurd rfl hset
      · rfl
    rcases h.slots crcs hcrcs b _ hslot with hunset | hcrc
    · exact absurd hunset hset
    · rw [hread, if_neg (not_not.mpr hcrc.symm)]
      exact hnext

theorem csiVerifyAgainst_ne_mismatch (h : CsiSound file m) (c : Csi) (off len : ℕ) :
    csiVerifyAgainst c m (File.pread file off len) off ≠ .mismatch := by
  rw [csiVerifyAgainst]
  rcases hcrcs : m.blockcrc with _ | crcs
  · rintro ⟨⟩
  · simp only
    by_cases hnot : m.haveBlockcrc = false ∨ m.bufferSize ≤ 0
    · rw [if_pos hnot]
      rintro ⟨⟩
    · rw [if_neg hnot]
      refine csiVerifyBlocks_ne_mismatch h c hcrcs off len _ _ ?_
      have hg : 0 < m.granule := by
        have hpos : 0 < m.bufferSize := Int64.not_le.mp fun hle => hnot (.inr hle)
        have hint : 0 < m.bufferSize.toInt := Int64.lt_iff_toInt_lt.mp hpos
        rw [Xmeta.granule, Int64.toNatClampNeg]
        omega
      have hdiv := Nat.lt_div_mul_add hg (a := off + m.granule - 1)
      rw [csiFirstBlock]
      omega

variable {load : Except XmetaFault Xmeta}

theorem csiVerifyRead_ne_mismatch {c : Csi} (hrecord : ∀ m, c.record = some m → CsiSound file m)
    (hload : ∀ m, load = .ok m → CsiSound file m) (off len : ℕ) :
    csiVerifyRead c load (File.pread file off len) off ≠ .mismatch := by
  unfold csiVerifyRead
  split
  · rintro ⟨⟩
  · rcases hrec : c.record with _ | m
    · rcases load with f | m
      · cases f <;> rintro ⟨⟩
      · exact csiVerifyAgainst_ne_mismatch (hload m rfl) c off len
    · exact csiVerifyAgainst_ne_mismatch (hrecord m hrec) c off len

/-! ## What a flush saves -/

/-- Does the extent touch block `b`? -/
def csiTouches (g : ℕ) (e : Extent) (b : ℕ) : Prop := e.lo / g ≤ b ∧ b < (e.hi + g - 1) / g

instance (g : ℕ) (e : Extent) (b : ℕ) : Decidable (csiTouches g e b) :=
  inferInstanceAs (Decidable (_ ∧ _))

theorem csiFlushRecomputeBlock_eq_some (hsize : m.size = file.length) {b : ℕ} {reads : Bool}
    {x : UInt32} (h : csiFlushRecomputeBlock file m b reads = some x) :
    x = crc32cValue (csiBlock file m.granule b) := by
  rw [csiFlushRecomputeBlock] at h
  simp only [csiBlock_eq hsize] at h
  split at h
  · exact (Option.some.inj h).symm
  · cases h

/-- Each block that a rebuild touches has its folded checksum, or that of its bytes, or none. -/
theorem csiRebuildBlocks_spec (c : Csi) (hsize : m.size = file.length) (reads : ℕ → Bool)
    (foldOk : Bool) (n b budget : ℕ) (crcs : List UInt32) :
    (csiRebuildBlocks c file m reads foldOk n b budget crcs).length = crcs.length ∧
      (∀ j, ¬ (b ≤ j ∧ j < b + n) →
        (csiRebuildBlocks c file m reads foldOk n b budget crcs)[j]? = crcs[j]?) ∧
      ∀ j x, b ≤ j → j < b + n →
        (csiRebuildBlocks c file m reads foldOk n b budget crcs)[j]? = some x →
        if foldOk = true ∧ c.folded.getD j 0 ≠ xmetaCrcUnset then x = c.folded.getD j 0
        else x = xmetaCrcUnset ∨ x = crc32cValue (csiBlock file m.granule j) := by
  induction n generalizing b budget crcs with
  | zero =>
    refine ⟨rfl, fun _ _ => rfl, ?_⟩
    intro j x h₁ h₂
    omega
  | succ n ih =>
    -- whatever slot `b` is set to, the rest of the loop leaves it
    have hstep : ∀ (y : UInt32) (budget' : ℕ),
        (if foldOk = true ∧ c.folded.getD b 0 ≠ xmetaCrcUnset then y = c.folded.getD b 0
          else y = xmetaCrcUnset ∨ y = crc32cValue (csiBlock file m.granule b)) →
        (csiRebuildBlocks c file m reads foldOk n (b + 1) budget' (crcs.set b y)).length =
            crcs.length ∧
          (∀ j, ¬ (b ≤ j ∧ j < b + (n + 1)) →
            (csiRebuildBlocks c file m reads foldOk n (b + 1) budget' (crcs.set b y))[j]? =
              crcs[j]?) ∧
          ∀ j x, b ≤ j → j < b + (n + 1) →
            (csiRebuildBlocks c file m reads foldOk n (b + 1) budget' (crcs.set b y))[j]? =
              some x →
            if foldOk = true ∧ c.folded.getD j 0 ≠ xmetaCrcUnset then x = c.folded.getD j 0
            else x = xmetaCrcUnset ∨ x = crc32cValue (csiBlock file m.granule j) := by
      intro y budget' hy
      obtain ⟨hlen, hout, hin⟩ := ih (b + 1) budget' (crcs.set b y)
      refine ⟨hlen.trans length_set, ?_, ?_⟩
      · intro j hj
        rw [hout j (by omega), getElem?_set_ne (by omega)]
      · intro j x h₁ h₂ hx
        rcases Nat.eq_or_lt_of_le h₁ with rfl | hlt
        · rw [hout b (by omega), getElem?_set_self'] at hx
          obtain ⟨z, -, rfl⟩ := Option.map_eq_some_iff.mp hx
          exact hy
        · exact hin j x hlt (by omega) hx
    rw [csiRebuildBlocks]
    by_cases hfold : foldOk = true ∧ b < c.folded.length ∧ c.folded.getD b 0 ≠ xmetaCrcUnset
    · rw [if_pos hfold]
      refine hstep _ _ ?_
      rw [if_pos ⟨hfold.1, hfold.2.2⟩]
    · have hno : ¬ (foldOk = true ∧ c.folded.getD b 0 ≠ xmetaCrcUnset) := by
        rintro ⟨hok, hne⟩
        refine hfold ⟨hok, ?_, hne⟩
        refine Nat.not_le.mp fun hle => hne ?_
        rw [getD_eq_getElem?_getD, getElem?_eq_none hle]
        rfl
      rw [if_neg hfold]
      by_cases hbudget : 0 < budget
      · rw [if_pos hbudget]
        rcases hread : csiFlushRecomputeBlock file m b (reads b) with _ | crc
        · refine hstep _ _ ?_
          rw [if_neg hno]
          exact .inl rfl
        · refine hstep _ _ ?_
          rw [if_neg hno]
          exact .inr (csiFlushRecomputeBlock_eq_some hsize hread)
      · rw [if_neg hbudget]
        refine hstep _ _ ?_
        rw [if_neg hno]
        exact .inl rfl

/-- **The record a flush starts from**: the geometry of the file, and of the old
table only what was made for that geometry. -/
theorem csiFlushLoadRecord_eq_ok {now : Int64} {mtime : UInt64} {granule : UInt32} {size : Int64}
    (hload : ∀ old, load = .ok old → CsiRecord old)
    (h : csiFlushLoadRecord now mtime granule size load = .ok m) :
    CsiRecord m ∧ m.haveBlockcrc = true ∧ m.fileSize = size ∧
      (load = .error .foreign → m.bufferSize = granule.toUInt64.toInt64) ∧
      (∀ old, load = .ok old → m.bufferSize = old.bufferSize) ∧
      ∃ crcs, m.blockcrc = some crcs ∧ ∀ (b : ℕ) (x : UInt32), crcs[b]? = some x → x = xmetaCrcUnset ∨
        ∃ old oldCrcs, load = .ok old ∧ old.fileSize = size ∧ old.blockcrc = some oldCrcs ∧
          oldCrcs[b]? = some x := by
  -- a fresh record's table is unset
  have hfresh : ∀ {bufferSize : Int64} {nu : Xmeta}, xmetaInit now size bufferSize = .ok nu →
      0 < bufferSize ∧ 0 ≤ size ∧ nu.nblocks = xmetaNblocks size bufferSize ∧
        nu.fileSize = size ∧ nu.bufferSize = bufferSize ∧
        nu.blockcrc = some (replicate nu.nblocks.toNat xmetaCrcUnset) := by
    intro bufferSize nu hinit
    obtain ⟨hpos, hnonneg, hwf, hsize, hbuf, -⟩ := xmetaInit_eq_ok hinit
    refine ⟨hpos, hnonneg, ?_, hsize, hbuf, (xmetaInit_haveState hinit).2.2⟩
    rw [hwf.nblocks_eq, hsize, hbuf]
  have hunset : ∀ (n b : ℕ) (x : UInt32),
      (replicate n xmetaCrcUnset)[b]? = some x → x = xmetaCrcUnset := by
    intro n b x hx
    exact (mem_replicate.mp (mem_of_getElem? hx)).2
  cases load with
  | error f =>
    cases f with
    | err e => cases h
    | foreign =>
      simp only [csiFlushLoadRecord] at h
      rcases hinit : xmetaInit now size granule.toUInt64.toInt64 with e | nu
      · rw [hinit] at h
        cases h
      · obtain ⟨hpos, hnonneg, hnb, hsize, hbuf, htable⟩ := hfresh hinit
        rw [hinit] at h
        cases h
        have hcrcs : ({ nu.presentAll with originMtime := mtime }.tracked).blockcrc =
            some (replicate nu.nblocks.toNat xmetaCrcUnset) := by
          simp only [Xmeta.tracked, Xmeta.presentAll, htable]
        refine ⟨⟨?_, ?_, ?_, ?_⟩, rfl, hsize, fun _ => hbuf, (fun old ho => by cases ho), _,
          hcrcs, fun b x hx => .inl (hunset _ b x hx)⟩
        · exact hsize ▸ hnonneg
        · exact hbuf ▸ hpos
        · exact hnb.trans (by rw [← hsize, ← hbuf]; rfl)
        · intro cs hcs
          rw [hcrcs] at hcs
          rw [← Option.some.inj hcs, length_replicate]
          rfl
  | ok old =>
    have hold := hload old rfl
    simp only [csiFlushLoadRecord] at h
    by_cases hgeom : old.fileSize ≠ size ∨ old.bufferSize ≤ 0
    · rw [if_pos hgeom, if_pos hold.granule_pos, csiRecordRegeom] at h
      rcases hinit : xmetaInit now size old.bufferSize with e | nu
      · rw [hinit] at h
        cases h
      · obtain ⟨hpos, hnonneg, hnb, hsize, hbuf, htable⟩ := hfresh hinit
        rw [hinit] at h
        cases h
        refine ⟨⟨?_, ?_, ?_, ?_⟩, rfl, hsize, (fun hf => by cases hf), ?_, _, ?_,
          fun b x hx => .inl (hunset nu.nblocks.toNat b x hx)⟩
        · exact hsize ▸ hnonneg
        · exact hbuf ▸ hpos
        · exact hnb.trans (by rw [← hsize, ← hbuf]; rfl)
        · intro cs hcs
          simp only [Xmeta.tracked, Xmeta.presentAll, htable] at hcs
          rw [← Option.some.inj hcs, length_replicate]
          rfl
        · rintro x ⟨⟩
          exact hbuf
        · simp only [Xmeta.tracked, Xmeta.presentAll, htable]
    · rw [if_neg hgeom] at h
      cases h
      have hsize : old.fileSize = size := not_not.mp fun hne => hgeom (.inl hne)
      refine ⟨⟨hold.nonneg, hold.granule_pos, hold.nblocks, ?_⟩, rfl, hsize,
        (fun hf => by cases hf), ?_, ?_⟩
      · intro cs hcs
        rcases hcrcs : old.blockcrc with _ | oldCrcs
        · simp only [Xmeta.tracked, hcrcs] at hcs
          rw [← Option.some.inj hcs, length_replicate]
          rfl
        · simp only [Xmeta.tracked, hcrcs] at hcs
          rw [← Option.some.inj hcs]
          exact hold.table oldCrcs hcrcs
      · rintro x ⟨⟩
        rfl
      · rcases hcrcs : old.blockcrc with _ | oldCrcs
        · refine ⟨replicate old.nblocks.toNat xmetaCrcUnset, ?_,
            fun b x hx => .inl (hunset _ b x hx)⟩
          simp only [Xmeta.tracked, hcrcs]
        · refine ⟨oldCrcs, ?_, fun b x hx => .inr ⟨old, oldCrcs, rfl, hsize, hcrcs, hx⟩⟩
          simp only [Xmeta.tracked, hcrcs]

theorem csiFlushMarkCoverage_eq (now : Int64) (m : Xmeta) (crcs : List UInt32) :
    ∃ t, csiFlushMarkCoverage now m crcs = { m with noCksumTime := t } := by
  rw [csiFlushMarkCoverage]
  split <;> exact ⟨_, rfl⟩

/-- **A flush** saves a record of the file whose slots, in the written extent,
are the fold's where it is used, and otherwise unset or right; the rest is the
old record's. -/
theorem csiFlush_eq_some {c : Csi} {env : CsiFlushEnv}
    {e : Extent} (hload : ∀ old, load = .ok old → CsiRecord old) (hfits : file.length < 2 ^ 63)
    (hdirty : c.dirty = some e) (h : csiFlush c file load env = .ok (some m)) :
    CsiRecord m ∧ m.haveBlockcrc = true ∧ m.size = file.length ∧
      (load = .error .foreign → m.granule = c.granule.toNat) ∧
      (∀ old, load = .ok old → m.granule = old.granule) ∧
      ∃ crcs, m.blockcrc = some crcs ∧ ∀ (b : ℕ) (x : UInt32), crcs[b]? = some x →
        if csiTouches m.granule e b then
          if c.foldOk m = true ∧ c.folded.getD b 0 ≠ xmetaCrcUnset then x = c.folded.getD b 0
          else x = xmetaCrcUnset ∨ x = crc32cValue (csiBlock file m.granule b)
        else x = xmetaCrcUnset ∨ ∃ old oldCrcs, load = .ok old ∧ old.size = file.length ∧
          old.blockcrc = some oldCrcs ∧ oldCrcs[b]? = some x := by
  have hnat : (UInt64.ofNat file.length).toNat = file.length :=
    UInt64.toNat_ofNat_of_lt' (Nat.lt_trans hfits (by decide))
  have hclamp : (UInt64.ofNat file.length).toInt64.toNatClampNeg = file.length := by
    rw [toNatClampNeg_toInt64 (hnat.symm ▸ hfits), hnat]
  rw [csiFlush, hdirty] at h
  simp only at h
  rcases hrec : csiFlushLoadRecord env.now env.mtime c.granule
    (UInt64.ofNat file.length).toInt64 load with err | m₀
  · rw [hrec] at h
    cases h
  rw [hrec] at h
  obtain ⟨hm₀, hhave, hfile, hforeign, hsame, crcs₀, hcrcs₀, hslots⟩ :=
    csiFlushLoadRecord_eq_ok hload hrec
  have hsize : m₀.size = file.length := by
    rw [Xmeta.size, hfile, hclamp]
  simp only [hcrcs₀, Option.getD_some] at h
  generalize hnew : csiFlushRebuildCrcs c e file m₀ env.reads crcs₀ = crcs at h
  obtain ⟨t, ht⟩ := csiFlushMarkCoverage_eq env.now { m₀ with blockcrc := some crcs } crcs
  rw [ht] at h
  obtain rfl := Option.some.inj (Except.ok.inj h)
  obtain ⟨hlen, hout, hin⟩ := csiRebuildBlocks_spec c hsize env.reads (c.foldOk m₀)
    (min ((e.hi + m₀.granule - 1) / m₀.granule) m₀.nblocks.toNat - e.lo / m₀.granule)
    (e.lo / m₀.granule) csiFlushRead crcs₀
  have hrebuilt : csiRebuildBlocks c file m₀ env.reads (c.foldOk m₀)
      (min ((e.hi + m₀.granule - 1) / m₀.granule) m₀.nblocks.toNat - e.lo / m₀.granule)
      (e.lo / m₀.granule) csiFlushRead crcs₀ = crcs := hnew
  rw [hrebuilt] at hlen hout hin
  have htable : crcs.length = m₀.nblocks.toNat := hlen.trans (hm₀.table crcs₀ hcrcs₀)
  refine ⟨⟨hm₀.nonneg, hm₀.granule_pos, hm₀.nblocks, ?_⟩, hhave, hsize, ?_, ?_, crcs, rfl, ?_⟩
  · intro cs hcs
    rw [← Option.some.inj hcs]
    exact htable
  · intro hf
    calc m₀.granule = c.granule.toUInt64.toInt64.toNatClampNeg :=
          congrArg Int64.toNatClampNeg (hforeign hf)
      _ = c.granule.toNat := toNatClampNeg_granule c.granule
  · exact fun old ho => congrArg Int64.toNatClampNeg (hsame old ho)
  · intro b x hx
    have hb : b < m₀.nblocks.toNat := htable ▸ (List.getElem?_eq_some_iff.mp hx).1
    by_cases htouch : csiTouches m₀.granule e b
    · exact (if_pos htouch).mpr (hin b x htouch.1 (by have := htouch.2; omega) hx)
    · refine (if_neg htouch).mpr ?_
      rw [hout b (fun hrange => htouch ⟨hrange.1, by omega⟩)] at hx
      rcases hslots b x hx with hunset | ⟨old, oldCrcs, ho, hos, hoc, hox⟩
      · exact .inl hunset
      · refine .inr ⟨old, oldCrcs, ho, ?_, hoc, hox⟩
        rw [Xmeta.size, hos, hclamp]

end BrixCache

/-!
## Writes and flushes of one handle

What the handle folded for a block is the checksum of the block as the last write that covered it
wholly left it.
-/

namespace BrixCache

open List

/-- The handle, the file, what a load of its record returns, and the writes so
far, the last one first. -/
structure CsiState : Type where
  csi : Csi
  file : Bytes
  load : Except XmetaFault Xmeta
  writes : List (ℕ × Bytes)

/-- A call, with what happens during it. -/
inductive CsiAct : Type where
  /-- `brix_csi_write_update` and the write itself -/
  | write (off : ℕ) (bytes : Bytes) (grows : ℕ → Bool) : CsiAct
  /-- `brix_csi_flush` that returns OK -/
  | flush (env : CsiFlushEnv) : CsiAct
  /-- one that does not, and may leave the record torn -/
  | flushFailed (torn : Option XmetaFault) : CsiAct

/-- One call on the handle. -/
inductive CsiStep : CsiState → CsiAct → CsiState → Prop where
  | write {s : CsiState} {off : ℕ} {bytes : Bytes} {grows : ℕ → Bool}
      (hfits : off + bytes.length < 2 ^ 63) :
      CsiStep s (.write off bytes grows)
        { s with
          csi := csiWriteUpdate s.csi bytes off grows
          file := File.pwrite 0 s.file off bytes
          writes := (off, bytes) :: s.writes }
  | flush {s : CsiState} {env : CsiFlushEnv} {m : Xmeta}
      (hflush : csiFlush s.csi s.file s.load env = .ok (some m)) :
      CsiStep s (.flush env)
        { s with csi := { s.csi with dirty := none }, load := .ok m.persisted }
  | flushClean {s : CsiState} {env : CsiFlushEnv}
      (hflush : csiFlush s.csi s.file s.load env = .ok none) : CsiStep s (.flush env) s
  | flushFailed (s : CsiState) (torn : Option XmetaFault) :
      CsiStep s (.flushFailed torn)
        { s with load := torn.elim s.load .error }

/-- After a flush that returned OK, as long as nothing more is written, the
record is sound, and no read of the file's bytes fails against it. -/
structure CsiKept (s : CsiState) : Prop where
  sound : s.csi.dirty = none → ∀ m, s.load = .ok m → CsiSound s.file m
  verified : s.csi.dirty = none → ∀ (c : Csi), (∀ m, c.record = some m → s.load = .ok m) →
    ∀ off len, csiVerifyRead c s.load (File.pread s.file off len) off ≠ .mismatch

/-- Block `b` as the last of the writes that cover it wholly left it. -/
def csiWholeWrite (g : ℕ) : List (ℕ × Bytes) → ℕ → Option Bytes
  | [], _ => none
  | (off, bytes) :: ws, b =>
    if csiCovers g off bytes.length b then some (File.pread bytes (b * g - off) g)
    else csiWholeWrite g ws b

/-- The flushes that go right: where the fold is used — no overflow, a record of
the handle's granule — no block of the written extent that was once written
wholly has got another checksum by a partial write since. -/
def CsiGood (s : CsiState) : CsiAct → Prop
  | .flush _ => ∀ e, s.csi.dirty = some e → s.csi.overflow = false →
      (∀ m, s.load = .ok m → m.granule = s.csi.granule.toNat) →
      ∀ b, csiTouches s.csi.granule.toNat e b →
      ∀ bytes, csiWholeWrite s.csi.granule.toNat s.writes b = some bytes →
        crc32cValue bytes = xmetaCrcUnset ∨
          crc32cValue bytes = crc32cValue (csiBlock s.file s.csi.granule.toNat b)
  | _ => True

/-- The start: a fresh handle on a file with no record, or a sound one. -/
structure CsiState.Init (s : CsiState) : Prop where
  granule : 0 < s.csi.granule.toNat
  fits : s.file.length < 2 ^ 63
  dirty : s.csi.dirty = none
  folded : s.csi.folded = []
  writes : s.writes = []
  record : ∀ m, s.load = .ok m → CsiRecord m ∧ CsiSound s.file m

/-! ### Blocks under a write -/

variable {b g : ℕ} {e : Extent} {bytes : Bytes}

theorem csiTouches_of_mem {i : ℕ} (hg : 0 < g) (h₁ : b * g ≤ i)
    (h₂ : i < b * g + g) (hi : Extent.Mem i e) : csiTouches g e b := by
  obtain ⟨hlo, hhi⟩ := hi
  constructor
  · rw [← Nat.lt_succ_iff, Nat.div_lt_iff_lt_mul hg, Nat.succ_mul]
    omega
  · rw [Nat.lt_iff_add_one_le, Nat.le_div_iff_mul_le hg, Nat.succ_mul]
    omega

theorem csiTouches_mono {f : Extent} (h : csiTouches g e b) (hlo : f.lo ≤ e.lo)
    (hhi : e.hi ≤ f.hi) : csiTouches g f b :=
  ⟨Nat.le_trans (Nat.div_le_div_right hlo) h.1,
    Nat.lt_of_lt_of_le h.2 (Nat.div_le_div_right (by omega))⟩

theorem csiBlock_pwrite {file : Bytes} {off : ℕ}
    (hlen : (File.pwrite 0 file off bytes).length = file.length)
    (hout : ∀ i, b * g ≤ i → i < b * g + g → ¬ (off ≤ i ∧ i < off + bytes.length)) :
    csiBlock (File.pwrite 0 file off bytes) g b = csiBlock file g b := by
  apply ext_getElem?
  intro j
  rw [csiBlock, csiBlock, File.getElem?_pread, File.getElem?_pread]
  by_cases hj : j < g
  · rw [if_pos hj, if_pos hj]
    rcases Nat.lt_or_ge (b * g + j) file.length with hin | hpast
    · have hnot := hout (b * g + j) (by omega) (by omega)
      exact File.getElem?_pwrite_of_not_mem 0 file (by omega) hin
    · rw [getElem?_eq_none hpast, getElem?_eq_none (hlen.symm ▸ hpast)]
  · rw [if_neg hj, if_neg hj]

theorem csiWholeWrite_inside {len : ℕ} (hg : 0 < g) {ws : List (ℕ × Bytes)}
    (hws : ∀ w ∈ ws, w.2 ≠ [] → w.1 + w.2.length ≤ len)
    (h : csiWholeWrite g ws b = some bytes) : b * g + g ≤ len := by
  induction ws with
  | nil => cases h
  | cons w ws ih =>
    obtain ⟨off, bs⟩ := w
    rw [csiWholeWrite] at h
    by_cases hcov : csiCovers g off bs.length b
    · have hne : bs ≠ [] := by
        rintro rfl
        obtain ⟨h₁, h₂⟩ := hcov
        rw [length_nil] at h₂
        omega
      exact Nat.le_trans hcov.2 (hws _ mem_cons_self hne)
    · rw [if_neg hcov] at h
      exact ih (fun w hw => hws w (mem_cons_of_mem _ hw)) h

/-! ### The invariant -/

/-- What good steps keep. -/
structure CsiInv (s : CsiState) : Prop where
  granule : 0 < s.csi.granule.toNat
  fits : s.file.length < 2 ^ 63
  record : ∀ m, s.load = .ok m → CsiRecord m ∧ m.size ≤ s.file.length
  /-- a record of the file's size is right outside the written extent -/
  slots : ∀ m, s.load = .ok m → m.size = s.file.length → ∀ crcs, m.blockcrc = some crcs →
    ∀ (b : ℕ) (x : UInt32), crcs[b]? = some x →
      (∀ e, s.csi.dirty = some e → ¬ csiTouches m.granule e b) →
      x = xmetaCrcUnset ∨ x = crc32cValue (csiBlock s.file m.granule b)
  clean : s.csi.dirty = none → ∀ m, s.load = .ok m → m.size = s.file.length
  inside : ∀ w ∈ s.writes, w.2 ≠ [] → w.1 + w.2.length ≤ s.file.length
  folded : s.csi.overflow = false → ∀ b, s.csi.folded.getD b 0 =
    match csiWholeWrite s.csi.granule.toNat s.writes b with
    | some bytes => crc32cValue bytes
    | none => xmetaCrcUnset

variable {s s' : CsiState} {a : CsiAct}

theorem CsiState.Init.inv (h : s.Init) : CsiInv s := by
  refine ⟨h.granule, h.fits, ?_, ?_, ?_, ?_, ?_⟩
  · exact fun m hm => ⟨(h.record m hm).1, Nat.le_of_eq (h.record m hm).2.size⟩
  · exact fun m hm _ crcs hcrcs b x hx _ => (h.record m hm).2.slots crcs hcrcs b x hx
  · exact fun _ m hm => (h.record m hm).2.size
  · intro w hw
    rw [h.writes] at hw
    cases hw
  · intro _ b
    rw [h.writes, h.folded]
    rfl

theorem CsiInv.kept (h : CsiInv s) : CsiKept s := by
  have hsound : s.csi.dirty = none → ∀ m, s.load = .ok m → CsiSound s.file m := by
    intro hclean m hm
    refine ⟨h.clean hclean m hm, fun crcs hcrcs b x hx => ?_⟩
    refine h.slots m hm (h.clean hclean m hm) crcs hcrcs b x hx ?_
    intro e he
    rw [hclean] at he
    cases he
  exact ⟨hsound, fun hclean c hc off len => csiVerifyRead_ne_mismatch
    (fun m hm => hsound hclean m (hc m hm)) (hsound hclean) off len⟩

/-- A write folds in the blocks that it covers, and forgets those that it cuts. -/
theorem CsiInv.write (h : CsiInv s) {off : ℕ} (grows : ℕ → Bool)
    (hfits : off + bytes.length < 2 ^ 63) :
    CsiInv { s with
      csi := csiWriteUpdate s.csi bytes off grows
      file := File.pwrite 0 s.file off bytes
      writes := (off, bytes) :: s.writes } := by
  by_cases hempty : bytes = []
  · -- writing nothing changes nothing but the list of writes
    subst hempty
    have hsame : csiWriteUpdate s.csi [] off grows = s.csi :=
      dif_neg (Nat.lt_irrefl 0)
    have hcov : ∀ b, ¬ csiCovers s.csi.granule.toNat off ([] : Bytes).length b := by
      rintro b ⟨h₁, h₂⟩
      have hg := h.granule
      rw [length_nil] at h₂
      omega
    simp only [hsame, File.pwrite_nil]
    refine ⟨h.granule, h.fits, h.record, h.slots, h.clean, ?_, ?_⟩
    · intro w hw hne
      rcases mem_cons.mp hw with rfl | hold
      · exact absurd rfl hne
      · exact h.inside w hold hne
    · intro hover b
      rw [csiWholeWrite, if_neg (hcov b)]
      exact h.folded hover b
  have hpos : 0 < bytes.length := length_pos_iff.mpr hempty
  obtain ⟨hgran, hdirty, hfold⟩ := csiWriteUpdate_spec (c := s.csi) grows h.granule hpos
  have hlen := File.length_pwrite 0 s.file off hempty
  have hgrow : s.file.length ≤ (File.pwrite 0 s.file off bytes).length :=
    File.length_le_length_pwrite 0 s.file off bytes
  refine ⟨hgran ▸ h.granule, ?_, ?_, ?_, ?_, ?_, ?_⟩
  · have hold := h.fits
    simp only [hlen]
    omega
  · exact fun m hm => ⟨(h.record m hm).1, Nat.le_trans (h.record m hm).2 hgrow⟩
  · intro m hm hsize crcs hcrcs b x hx hout
    -- the record has the file's size, so the write did not grow it
    have hle := (h.record m hm).2
    have hsame : (File.pwrite 0 s.file off bytes).length = s.file.length := by
      simp only at hsize
      omega
    have hg : 0 < m.granule := by
      have hint : 0 < m.bufferSize.toInt := Int64.lt_iff_toInt_lt.mp (h.record m hm).1.granule_pos
      rw [Xmeta.granule, Int64.toNatClampNeg]
      omega
    have hnot := hout _ hdirty
    have hold := h.slots m hm (hsize.trans hsame) crcs hcrcs b x hx ?_
    · simp only
      rw [csiBlock_pwrite hsame]
      · exact hold
      · intro i h₁ h₂ hin
        refine hnot ?_
        have hmem : csiTouches m.granule ⟨off, off + bytes.length, Nat.lt_add_of_pos_right hpos⟩ b :=
          csiTouches_of_mem hg h₁ h₂ hin
        rcases s.csi.dirty with _ | f
        · exact hmem
        · exact csiTouches_mono hmem (Nat.min_le_left _ _) (Nat.le_max_left _ _)
    · intro f hf hold
      refine hnot ?_
      rw [hf]
      exact csiTouches_mono hold (Nat.min_le_right _ _) (Nat.le_max_right _ _)
  · intro hclean
    rw [hdirty] at hclean
    cases hclean
  · intro w hw hne
    rcases mem_cons.mp hw with rfl | hold
    · simp only [hlen]
      omega
    · exact Nat.le_trans (h.inside w hold hne) hgrow
  · intro hover b
    obtain ⟨hover', hfolded⟩ := hfold hover
    simp only [hgran]
    rw [hfolded b, csiWholeWrite]
    by_cases hcov : csiCovers s.csi.granule.toNat off bytes.length b
    · rw [if_pos hcov, if_pos hcov]
    · rw [if_neg hcov, if_neg hcov]
      exact h.folded hover' b

/-- What a flush puts in the record -/
theorem CsiInv.flush (h : CsiInv s) {env : CsiFlushEnv} {m : Xmeta}
    (hdirty : s.csi.dirty = some e) (hflush : csiFlush s.csi s.file s.load env = .ok (some m)) :
    CsiRecord m ∧ m.haveBlockcrc = true ∧ m.size = s.file.length ∧
      (s.csi.foldOk m = true → s.csi.overflow = false ∧ m.granule = s.csi.granule.toNat ∧
        ∀ old, s.load = .ok old → old.granule = s.csi.granule.toNat) ∧
      ((∀ old, s.load = .ok old → old.granule = s.csi.granule.toNat) →
        m.granule = s.csi.granule.toNat) ∧
      ∃ crcs, m.blockcrc = some crcs ∧ ∀ (b : ℕ) (x : UInt32), crcs[b]? = some x →
        if csiTouches m.granule e b ∧ s.csi.foldOk m = true ∧
          s.csi.folded.getD b 0 ≠ xmetaCrcUnset then x = s.csi.folded.getD b 0
        else x = xmetaCrcUnset ∨ x = crc32cValue (csiBlock s.file m.granule b) := by
  obtain ⟨hm, hhave, hsize, hforeign, hsame, crcs, hcrcs, hslots⟩ :=
    csiFlush_eq_some (fun old ho => (h.record old ho).1) h.fits hdirty hflush
  refine ⟨hm, hhave, hsize, ?_, ?_, crcs, hcrcs, ?_⟩
  · intro hok
    rw [Csi.foldOk, Bool.and_eq_true, decide_eq_true_eq, Bool.not_eq_true'] at hok
    exact ⟨hok.2, hok.1, fun old ho => (hsame old ho).symm.trans hok.1⟩
  · intro hgran
    rcases hload : s.load with f | old
    · cases f with
      | foreign => exact hforeign hload
      | err errno =>
        rw [csiFlush, hdirty, hload] at hflush
        cases hflush
    · exact (hsame old hload).trans (hgran old hload)
  · intro b x hx
    have hb := hslots b x hx
    by_cases htouch : csiTouches m.granule e b
    · rw [if_pos htouch] at hb
      by_cases hfold : s.csi.foldOk m = true ∧ s.csi.folded.getD b 0 ≠ xmetaCrcUnset
      · rw [if_pos hfold] at hb
        exact (if_pos ⟨htouch, hfold⟩).mpr hb
      · rw [if_neg hfold] at hb
        exact (if_neg fun hc => hfold hc.2).mpr hb
    · rw [if_neg htouch] at hb
      refine (if_neg fun hc => htouch hc.1).mpr ?_
      rcases hb with hunset | ⟨old, oldCrcs, ho, hos, hoc, hox⟩
      · exact .inl hunset
      · rw [hsame old ho] at htouch ⊢
        refine h.slots old ho hos oldCrcs hoc b x hox ?_
        intro f hf
        rw [hdirty] at hf
        cases hf
        exact htouch

theorem persisted_blockcrc {m : Xmeta} (hhave : m.haveBlockcrc = true) {crcs : List UInt32}
    (hcrcs : m.blockcrc = some crcs) : m.persisted.blockcrc = some crcs := by
  have hhas : m.hasBlockcrc = true := by
    rw [Xmeta.hasBlockcrc, hhave, hcrcs]
    rfl
  exact (if_pos hhas).trans hcrcs

/-- **One step** that meets the condition keeps the invariant. -/
theorem CsiInv.step (h : CsiInv s) (hstep : CsiStep s a s') (hgood : CsiGood s a) :
    CsiInv s' := by
  cases hstep with
  | @write off bytes grows hfits => exact h.write grows hfits
  | @flush env m hflush =>
    rcases hdirty : s.csi.dirty with _ | e
    · rw [csiFlush, hdirty] at hflush
      cases hflush
    obtain ⟨hm, hhave, hsize, hused, -, crcs, hcrcs, hslots⟩ := h.flush hdirty hflush
    have hpersist := persisted_blockcrc hhave hcrcs
    refine ⟨h.granule, h.fits, ?_, ?_, ?_, h.inside, h.folded⟩
    · rintro x ⟨⟩
      refine ⟨⟨hm.nonneg, hm.granule_pos, hm.nblocks, ?_⟩, Nat.le_of_eq hsize⟩
      intro cs hcs
      rw [hpersist] at hcs
      rw [← Option.some.inj hcs]
      exact hm.table crcs hcrcs
    · rintro x ⟨⟩ - cs hcs b y hy -
      rw [hpersist] at hcs
      cases hcs
      have hb := hslots b y hy
      by_cases hfold : csiTouches m.granule e b ∧ s.csi.foldOk m = true ∧
          s.csi.folded.getD b 0 ≠ xmetaCrcUnset
      · rw [if_pos hfold] at hb
        obtain ⟨hover, hgran, hold⟩ := hused hfold.2.1
        have hfolded := h.folded hover b
        rcases hwhole : csiWholeWrite s.csi.granule.toNat s.writes b with _ | bytes
        · rw [hwhole] at hfolded
          exact absurd hfolded hfold.2.2
        · rw [hwhole] at hfolded
          rw [hb, hfolded]
          have hcrc := hgood e hdirty hover hold b (hgran ▸ hfold.1) bytes hwhole
          rw [← hgran] at hcrc
          exact hcrc
      · rw [if_neg hfold] at hb
        exact hb
    · rintro - x ⟨⟩
      exact hsize
  | flushClean => exact h
  | flushFailed torn =>
    have hload : ∀ m, torn.elim s.load .error = .ok m → s.load = .ok m := by
      intro m hm
      cases torn with
      | some f => cases hm
      | none => exact hm
    exact ⟨h.granule, h.fits, fun m hm => h.record m (hload m hm),
      fun m hm => h.slots m (hload m hm), fun hc m hm => h.clean hc m (hload m hm), h.inside,
      h.folded⟩

/-- **The converse**: a flush outside the condition leaves a wrong checksum. -/
theorem CsiInv.not_kept_of_bad (h : CsiInv s) (hstep : CsiStep s a s')
    (hbad : ¬ CsiGood s a) : ¬ CsiKept s' := by
  intro hkept
  cases hstep with
  | write | flushFailed => exact hbad trivial
  | @flush env m hflush =>
    simp only [CsiGood] at hbad
    push Not at hbad
    obtain ⟨e, hdirty, hover, hgran, b, htouch, bytes, hwhole, hset, hne⟩ := hbad
    obtain ⟨hm, hhave, hsize, -, hsame, crcs, hcrcs, hslots⟩ := h.flush hdirty hflush
    have hg : m.granule = s.csi.granule.toNat := hsame hgran
    have hfolded := h.folded hover b
    rw [hwhole] at hfolded
    -- the block is inside the file, so it has a slot
    have hinside := csiWholeWrite_inside h.granule h.inside hwhole
    have hb : b < crcs.length := by
      have hlen : m.fileSize.toNatClampNeg = s.file.length := hsize
      have hgran' : m.bufferSize.toNatClampNeg = s.csi.granule.toNat := hg
      have hpos := h.granule
      rw [hm.table crcs hcrcs, hm.nblocks, toNat_xmetaNblocks hm.nonneg hm.granule_pos, hlen,
        hgran', Nat.lt_iff_add_one_le, Nat.le_div_iff_mul_le hpos, Nat.succ_mul]
      omega
    have hslot : crcs[b]? = some crcs[b] := getElem?_eq_getElem hb
    have hx := hslots b crcs[b] hslot
    have hok : s.csi.foldOk m = true := by
      rw [Csi.foldOk, hover, decide_eq_true hg]
      rfl
    rw [if_pos ⟨hg.symm ▸ htouch, hok, hfolded ▸ hset⟩, hfolded] at hx
    have hsound := hkept.sound rfl m.persisted rfl
    rcases hsound.slots crcs (persisted_blockcrc hhave hcrcs) b crcs[b] hslot with hunset | hcrc
    · exact hset (hx.symm.trans hunset)
    · have hgp : m.persisted.granule = m.granule := rfl
      rw [hx, hgp, hg] at hcrc
      exact hne hcrc
  | flushClean hflush =>
    simp only [CsiGood] at hbad
    push Not at hbad
    obtain ⟨e, hdirty, -⟩ := hbad
    rw [csiFlush, hdirty] at hflush
    simp only at hflush
    split at hflush <;> cases hflush

/-! ### Runs -/

/-- The system restricted to good flushes. -/
def CsiGoodStep (s : CsiState) (a : CsiAct) (s' : CsiState) : Prop :=
  CsiStep s a s' ∧ CsiGood s a

theorem csiInv_run {s₀ : CsiState} {as : List CsiAct} (hinit : s₀.Init)
    (hrun : Run CsiGoodStep s₀ as s) : CsiInv s :=
  hrun.invariant (fun _ _ _ h hstep => h.step hstep.1 hstep.2) hinit.inv

/-- **When a flush is sound.** In every run whose flushes find no folded block
changed by a later partial write, every OK flush leaves a sound record, against
which no read of the file's bytes fails; and the first flush that does find one
leaves a record that is not. -/
theorem csiKept_iff_good {s₀ : CsiState} {as : List CsiAct} (hinit : s₀.Init)
    (hrun : Run CsiGoodStep s₀ as s) :
    CsiKept s ∧ ∀ a s', CsiStep s a s' → (CsiKept s' ↔ CsiGood s a) := by
  have hinv := csiInv_run hinit hrun
  refine ⟨hinv.kept, fun a s' hstep => ⟨?_, fun hgood => (hinv.step hstep hgood).kept⟩⟩
  intro hkept
  exact Classical.byContradiction fun hbad => hinv.not_kept_of_bad hstep hbad hkept

/-- A handle of granule two on a file of four bytes without a record. -/
def sampleCsiState : CsiState :=
  ⟨⟨2, false, none, false, [], none⟩, [1, 2, 3, 4], .error .foreign, []⟩

theorem sampleCsiState_init : sampleCsiState.Init :=
  ⟨by decide, by decide, rfl, rfl, rfl, fun m hm => by cases hm⟩

/-- The allocator and the file system answer every call. -/
def sampleFlushEnv : CsiFlushEnv := ⟨0, 7, fun _ => true⟩

theorem csiKept_iff_good_sample :
    ∃ s, Run CsiGoodStep sampleCsiState
        [.write 1 [9, 9, 9] (fun _ => true), .flush sampleFlushEnv] s ∧
      CsiKept s ∧ ∀ a s', CsiStep s a s' → (CsiKept s' ↔ CsiGood s a) := by
  have hrun : ∃ s, Run CsiGoodStep sampleCsiState
      [.write 1 [9, 9, 9] (fun _ => true), .flush sampleFlushEnv] s := by
    refine ⟨_, .cons ⟨.write (by decide), trivial⟩ (.cons ⟨.flush rfl, ?_⟩ (.nil _))⟩
    -- only block 1 is covered wholly, and nothing is written after
    intro e _ _ _ b _ bytes hwhole
    change (if csiCovers 2 1 3 b then some (File.pread [9, 9, 9] (b * 2 - 1) 2) else none) =
      some bytes at hwhole
    by_cases hcov : csiCovers 2 1 3 b
    · obtain ⟨h₁, h₂⟩ := hcov
      obtain rfl : b = 1 := by omega
      rw [if_pos (by decide)] at hwhole
      cases hwhole
      exact .inr (congrArg crc32cValue (by decide))
    · rw [if_neg hcov] at hwhole
      cases hwhole
  obtain ⟨s, hs⟩ := hrun
  exact ⟨s, hs, csiKept_iff_good sampleCsiState_init hs⟩

/-- A block written wholly and then in part: the flush records the checksum of
the first write, and the true bytes fail. -/
theorem partial_overwrite_keeps_stale_crc :
    ∃ s, Run CsiStep sampleCsiState
        [.write 0 [9, 9] (fun _ => true), .write 1 [7] (fun _ => true), .flush sampleFlushEnv] s ∧
      s.file = [9, 7, 3, 4] ∧ s.csi.dirty = none ∧ ¬ CsiKept s := by
  have hrun : ∃ s, Run CsiGoodStep sampleCsiState
      [.write 0 [9, 9] (fun _ => true), .write 1 [7] (fun _ => true)] s ∧
      ∃ s', CsiStep s (.flush sampleFlushEnv) s' ∧ s'.file = [9, 7, 3, 4] ∧
        s'.csi.dirty = none ∧ ¬ CsiGood s (.flush sampleFlushEnv) := by
    refine ⟨_, .cons ⟨.write (by decide), trivial⟩ (.cons ⟨.write (by decide), trivial⟩
      (.nil _)), _, .flush rfl, rfl, rfl, fun hgood => ?_⟩
    rcases hgood _ rfl rfl (fun m hm => by cases hm) 0 (by decide) [9, 9] rfl with hzero | hsame
    · exact absurd hzero (by decide +kernel)
    · have hblock : crc32cValue [9, 9] = crc32cValue [9, 7] := hsame
      exact absurd hblock (by decide +kernel)
  obtain ⟨s, hs, s', hstep, hfile, hclean, hbad⟩ := hrun
  have hrun' : Run CsiStep sampleCsiState _ s := hs.mono fun _ _ _ h => h.1
  exact ⟨s', hrun'.append (.one hstep), hfile, hclean,
    (csiInv_run sampleCsiState_init hs).not_kept_of_bad hstep hbad⟩

end BrixCache
