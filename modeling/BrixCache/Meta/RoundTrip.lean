import BrixCache.Meta.Decode

/-!
# The record round trip

What `xmetaDecode` returns on the bytes of `xmetaEncode`: the record with the
sections the plan left out at their empty values (`Xmeta.persisted`). The layout
is followed region by region — every region the encoder appends is read back
exactly (`Scanner.Reads`) by the decoder's scanner for it — and the regions
compose by `Scanner.Reads.bind`.
-/

namespace BrixCache

open List

namespace Xmeta

/-- What of a record its stock prefix carries. -/
def stockOnly (m : Xmeta) : Xmeta :=
  { xmetaOfStore m.stockStore with
    bitmap := m.bitmap
    astat := if 0 < m.astatCount then m.astat else XmetaAStat.zero }

/-- `r` with the STATE section of `m`. -/
def addState (r m : Xmeta) : Xmeta :=
  { r with
    haveState := r.haveState || m.haveState
    toXmetaState := if m.haveState then m.toXmetaState else r.toXmetaState }

/-- `r` with the ORIGIN section of `m`. -/
def addOrigin (r m : Xmeta) : Xmeta :=
  { r with toXmetaOrigin := if m.hasOrigin then m.toXmetaOrigin else r.toXmetaOrigin }

/-- `r` with the DIGEST section of `m`. -/
def addDigest (r m : Xmeta) : Xmeta :=
  { r with digests := if m.digests.isSome then m.digests else r.digests }

/-- `r` with the BLOCKCRC section of `m`. -/
def addBlockcrc (r m : Xmeta) : Xmeta :=
  { r with
    haveBlockcrc := r.haveBlockcrc || m.hasBlockcrc
    blockcrc := if m.hasBlockcrc then m.blockcrc else r.blockcrc }

/-- What of a record survives encoding: every field, but for those of absent
regions, which come back empty. -/
def persisted (m : Xmeta) : Xmeta :=
  { m with
    toXmetaState := if m.haveState then m.toXmetaState else XmetaState.zero
    astat := if 0 < m.astatCount then m.astat else XmetaAStat.zero
    astatCount := if 0 < m.astatCount then 1 else 0
    haveBlockcrc := m.hasBlockcrc
    blockcrc := if m.hasBlockcrc then m.blockcrc else none }

/-- The bounds a reader puts on a record besides its shape. -/
structure Readable (m : Xmeta) : Prop where
  fileSize_nonneg : 0 ≤ m.fileSize
  nblocks_le : m.nblocks.toNat ≤ xmetaMaxBlocks
  digests_le : ∀ ds, m.digests = some ds → ds.length ≤ xmetaMaxSection

end Xmeta

/-! ## The stock prefix -/

variable {m : Xmeta}

theorem reads_xmetaDecodeStockStore (hm : m.WellFormed) (hf : 0 ≤ m.fileSize)
    (hn : m.nblocks.toNat ≤ xmetaMaxBlocks) :
    Scanner.Reads xmetaDecodeStockStore
      (Wire.put xmetaStockVersion ++
        (Wire.put m.stockStore ++ Wire.put (crc32cValue (Wire.put m.stockStore))))
      (xmetaOfStore m.stockStore) := by
  have hnb : (xmetaOfStore m.stockStore).nblocks = m.nblocks := hm.nblocks_eq.symm
  have hastat : ¬ m.stockStore.astatSize < 0 := by
    by_cases h : 0 < m.astatCount
    · have hone : m.stockStore.astatSize = 1 := if_pos h
      rw [hone]
      decide
    · have hzero : m.stockStore.astatSize = 0 := if_neg h
      rw [hzero]
      decide
  have hsane : ¬ (m.stockStore.bufferSize ≤ 0 ∨ m.stockStore.fileSize < 0 ∨
      m.stockStore.astatSize < 0) := by
    rintro (h | h | h)
    · exact Int64.not_le.mpr hm.bufferSize_pos h
    · exact Int64.not_lt.mpr hf h
    · exact hastat h
  refine (Scanner.reads_word _ xmetaStockVersion).bind ?_
  rw [if_neg (not_not.mpr rfl)]
  refine (Scanner.reads_take_of_length (Wire.put_length m.stockStore)).bind ?_
  refine (Scanner.reads_word _ (crc32cValue (Wire.put m.stockStore))).bind_nil ?_
  rw [if_neg (not_not.mpr rfl)]
  simp only [Wire.get_put]
  rw [if_neg hsane, hnb, if_neg (Nat.not_lt.mpr hn)]
  exact Scanner.reads_pure _

theorem reads_xmetaDecodeAStats (m : Xmeta) (want : UInt32) :
    Scanner.Reads
      (xmetaDecodeAStats m.stockStore.astatSize 0 want XmetaAStat.zero :
        Scanner UInt8 XmetaFault (UInt32 × XmetaAStat))
      (if 0 < m.astatCount then Wire.put m.astat else [])
      (if 0 < m.astatCount then crc32cExtend want (Wire.put m.astat) else want,
        if 0 < m.astatCount then m.astat else XmetaAStat.zero) := by
  intro rest
  by_cases h : 0 < m.astatCount
  · have hone : m.stockStore.astatSize = 1 := if_pos h
    have hlen : (Wire.put m.astat).length = 56 := Wire.put_length m.astat
    have hshort : ¬ (Wire.put m.astat ++ rest).length < 56 := by
      rw [length_append]
      omega
    rw [if_pos h, if_pos h, if_pos h, hone, xmetaDecodeAStats, if_pos (by decide), if_neg hshort,
      take_left' hlen, drop_left' hlen, xmetaDecodeAStats, if_neg (by decide),
      if_pos (Nat.zero_mod _), Wire.get_put]
  · have hzero : m.stockStore.astatSize = 0 := if_neg h
    rw [if_neg h, if_neg h, if_neg h, hzero, xmetaDecodeAStats, if_neg (by decide),
      nil_append]

theorem reads_xmetaDecodeStock (hm : m.WellFormed) (hf : 0 ≤ m.fileSize)
    (hn : m.nblocks.toNat ≤ xmetaMaxBlocks) :
    Scanner.Reads xmetaDecodeStock (xmetaEncodeStockPrefix m (xmetaBitmapLen m.nblocks))
      m.stockOnly := by
  have hnb : (xmetaOfStore m.stockStore).nblocks = m.nblocks := hm.nblocks_eq.symm
  have hbitmap : m.bitmap.take (xmetaBitmapLen m.nblocks) = m.bitmap := by
    rw [← hm.bitmap_length, take_length]
  have hstore := reads_xmetaDecodeStockStore hm hf hn
  have hastats := reads_xmetaDecodeAStats m (crc32cValue m.bitmap)
  have hrest : Scanner.Reads (xmetaDecodeBitmapAStat (xmetaOfStore m.stockStore))
      (m.bitmap ++ ((if 0 < m.astatCount then Wire.put m.astat else []) ++
        Wire.put (if 0 < m.astatCount then crc32cExtend (crc32cValue m.bitmap) (Wire.put m.astat)
          else crc32cValue m.bitmap)))
      m.stockOnly := by
    refine (Scanner.reads_take_of_length ?_).bind ?_
    · rw [hnb]
      exact hm.bitmap_length
    · refine hastats.bind ?_
      refine (Scanner.reads_word _ _).bind_nil ?_
      rw [if_neg (not_not.mpr rfl)]
      exact Scanner.reads_pure _
  have hwhole : Scanner.Reads xmetaDecodeStock _ _ := hstore.bind hrest
  simp only [xmetaEncodeStockPrefix, hbitmap, Xmeta.astatSize_pos]
  by_cases h : 0 < m.astatCount
  · simpa only [if_pos h, append_assoc] using hwhole
  · simpa only [if_neg h, append_assoc] using hwhole

/-! ## The sections -/

theorem reads_xmetaPutSection {m' : Xmeta} {type : UInt16} {payload : List UInt8}
    (hlen : payload.length ≤ xmetaMaxSection)
    (hdec : xmetaDecodeSection m type payload = some m') :
    Scanner.Reads (xmetaDecodeSections 1 m) (xmetaPutSection type payload) m' := by
  have hplen : (UInt32.ofNat payload.length).toNat = payload.length := by
    rw [UInt32.toNat_ofNat']
    refine Nat.mod_eq_of_lt (Nat.lt_of_le_of_lt hlen ?_)
    decide
  have hone : Scanner.Reads (xmetaDecodeOneSection m) (xmetaPutSection type payload) m' := by
    refine (Scanner.reads_take_of_length (Wire.put_length type)).bind ?_
    refine (Scanner.reads_take_of_length (Wire.put_length (0 : UInt16))).bind ?_
    refine (Scanner.reads_take_of_length (Wire.put_length (UInt32.ofNat payload.length))).bind ?_
    simp only [Wire.get_put, hplen]
    rw [if_neg (Nat.not_lt.mpr hlen)]
    refine (Scanner.reads_take_of_length rfl).bind ?_
    refine (Scanner.reads_word _ _).bind_nil ?_
    simp only [hdec, ne_eq, not_true_eq_false, if_false]
    exact Scanner.reads_pure m'
  exact hone.bind_nil (Scanner.reads_pure m')

theorem xmetaDecodeSections_add (a b : ℕ) (m : Xmeta) :
    xmetaDecodeSections (a + b) m = xmetaDecodeSections a m >>= xmetaDecodeSections b := by
  induction a generalizing m with
  | zero => rw [Nat.zero_add, xmetaDecodeSections, pure_bind]
  | succ a ih =>
    rw [Nat.add_right_comm, xmetaDecodeSections, xmetaDecodeSections, bind_assoc]
    exact bind_congr ih

theorem reads_xmetaDecodeSections_add {a b : ℕ} {m₀ m₁ m₂ : Xmeta} {bs cs : List UInt8}
    (ha : Scanner.Reads (xmetaDecodeSections a m₀) bs m₁)
    (hb : Scanner.Reads (xmetaDecodeSections b m₁) cs m₂) :
    Scanner.Reads (xmetaDecodeSections (a + b) m₀) (bs ++ cs) m₂ := by
  rw [xmetaDecodeSections_add]
  exact ha.bind hb

theorem reads_xmetaEncodeState (r m : Xmeta) :
    Scanner.Reads (xmetaDecodeSections (if m.haveState then 1 else 0) r) (xmetaEncodeState m)
      (r.addState m) := by
  rw [xmetaEncodeState, Xmeta.addState]
  rcases m.haveState with _ | _
  · rw [Bool.or_false]
    exact Scanner.reads_pure r
  · have hlen : (Wire.put m.toXmetaState).length = Wire.width XmetaState := Wire.put_length _
    have htake : (Wire.put m.toXmetaState).take (Wire.width XmetaState) =
        Wire.put m.toXmetaState := by
      rw [← hlen, take_length]
    refine reads_xmetaPutSection ?_ ?_
    · rw [hlen]
      decide
    · rw [xmetaDecodeSection, if_pos rfl, xmetaDecodeState, hlen, if_neg (Nat.lt_irrefl _),
        htake, Wire.get_put, Bool.or_true]
      rfl

theorem reads_xmetaEncodeOrigin (r : Xmeta) (hm : m.WellFormed) :
    Scanner.Reads (xmetaDecodeSections (if m.hasOrigin then 1 else 0) r) (xmetaEncodeOrigin m)
      (r.addOrigin m) := by
  rw [xmetaEncodeOrigin, Xmeta.addOrigin]
  rcases m.hasOrigin with _ | _
  · exact Scanner.reads_pure r
  · have hlen := xmetaOriginPayload_length m.toXmetaOrigin
    have hetag := hm.etag_le
    have halg := hm.cksAlg_le
    have hhex := hm.cksHex_le
    -- the C lengths are single bytes, wide enough for every array
    have hbyte : ∀ n ≤ 129, (UInt8.ofNat n).toNat = n := by
      intro n hn
      rw [UInt8.toNat_ofNat']
      exact Nat.mod_eq_of_lt (by omega)
    refine reads_xmetaPutSection ?_ ?_
    · have hmax : 4 + 128 + 16 + 129 ≤ xmetaMaxSection := by decide
      rw [hlen, xmetaOriginFixed]
      omega
    · rw [xmetaDecodeSection, if_neg (by decide), if_pos rfl]
      simp only [xmetaOriginPayload, cons_append, nil_append, append_assoc,
        xmetaDecodeOrigin, hbyte _ (Nat.le_trans hetag (by decide)),
        hbyte _ (Nat.le_trans halg (by decide)), hbyte _ hhex]
      rw [if_neg]
      · rw [← drop_drop, drop_left, drop_left, take_left, take_left,
          take_length]
        rfl
      · simp only [length_cons, length_append, xmetaOriginFixed]
        omega

theorem reads_xmetaEncodeDigest (r : Xmeta)
    (hd : ∀ ds, m.digests = some ds → ds.length ≤ xmetaMaxSection) :
    Scanner.Reads (xmetaDecodeSections (if m.digests.isSome then 1 else 0) r)
      (xmetaEncodeDigest m) (r.addDigest m) := by
  rw [xmetaEncodeDigest, Xmeta.addDigest]
  rcases hds : m.digests with _ | ds
  · exact Scanner.reads_pure r
  · exact reads_xmetaPutSection (hd ds hds) rfl

/-- The block checksums are read back. -/
theorem reads_xmetaEncodeBlockcrc {r : Xmeta} (hm : m.WellFormed)
    (hn : m.nblocks.toNat ≤ xmetaMaxBlocks) (hr : r.nblocks = m.nblocks) :
    Scanner.Reads (xmetaDecodeSections (if m.hasBlockcrc then 1 else 0) r)
      (xmetaEncodeBlockcrc m) (r.addBlockcrc m) := by
  rw [xmetaEncodeBlockcrc, Xmeta.addBlockcrc, Xmeta.hasBlockcrc]
  rcases hb : m.haveBlockcrc with _ | _
  · rw [Bool.false_and, Bool.or_false]
    exact Scanner.reads_pure r
  · rcases ht : m.blockcrc with _ | table
    · rw [Option.isSome_none, Bool.and_false, Bool.or_false]
      exact Scanner.reads_pure r
    · have htable := hm.blockcrc_length table ht
      have hlen := xmetaBlockcrcPayload_length m htable
      have htake : table.take m.nblocks.toNat = table := by
        rw [← htable, take_length]
      have hword : ∀ n : UInt64, (Wire.put n).length = 8 := Wire.put_length
      have hgranule : (Wire.put m.bufferSize.toUInt64.toUInt32 ++
          Wire.put (0 : UInt32)).length = 8 := by
        rw [length_append, Wire.put_length, Wire.put_length]
        rfl
      have hheader : (Wire.put m.bufferSize.toUInt64.toUInt32 ++ Wire.put (0 : UInt32) ++
          Wire.put m.nblocks).length = 16 := by
        rw [length_append, hgranule, Wire.put_length]
        rfl
      have hnb : (((xmetaBlockcrcPayload m table).drop 8).take 8) = Wire.put m.nblocks := by
        rw [xmetaBlockcrcPayload, append_assoc, drop_left' hgranule,
          take_left' (hword m.nblocks)]
      have hwords : (xmetaBlockcrcPayload m table).drop 16 = Wire.putAll table := by
        rw [xmetaBlockcrcPayload, htake, drop_left' hheader]
      refine reads_xmetaPutSection ?_ ?_
      · rw [hlen, xmetaMaxSection]
        omega
      · rw [xmetaDecodeSection, if_neg (by decide), if_neg (by decide), if_neg (by decide),
          if_pos rfl, xmetaDecodeBlockcrc, hlen, if_neg (by omega), hnb, hwords]
        simp only [Wire.get_put]
        rw [if_neg, ← htable, Wire.getAll_putAll, Option.isSome_some, Bool.and_self,
          Bool.or_true]
        · rfl
        · rintro (h | h)
          · exact h hr.symm
          · exact h rfl

theorem toNat_nsec (m : Xmeta) :
    (xmetaEncodePlan m).nsec.toNat =
      (if m.haveState then 1 else 0) + ((if m.hasOrigin then 1 else 0) +
        ((if m.digests.isSome then 1 else 0) + (if m.hasBlockcrc then 1 else 0))) := by
  rw [xmetaEncodePlan]
  rcases m.haveState with _ | _ <;> rcases m.hasOrigin with _ | _ <;>
    rcases m.digests.isSome with _ | _ <;> rcases m.hasBlockcrc with _ | _ <;> rfl

theorem addSections_stockOnly (hm : m.WellFormed) :
    (((m.stockOnly.addState m).addOrigin m).addDigest m).addBlockcrc m = m.persisted := by
  have horigin : ¬ m.hasOrigin = true → m.toXmetaOrigin = XmetaOrigin.empty := by
    intro h
    rw [Xmeta.hasOrigin, decide_eq_true_eq] at h
    have hetag : m.etag = [] := length_eq_zero_iff.mp (by omega)
    have halg : m.cksAlg = [] := length_eq_zero_iff.mp (by omega)
    have hhex : m.cksHex = [] := length_eq_zero_iff.mp (by omega)
    calc m.toXmetaOrigin = ⟨m.etag, m.cksAlg, m.cksHex⟩ := rfl
      _ = XmetaOrigin.empty := by rw [hetag, halg, hhex, XmetaOrigin.empty]
  have hkeep : (if m.hasOrigin then m.toXmetaOrigin else XmetaOrigin.empty) =
      m.toXmetaOrigin := by
    rcases h : m.hasOrigin with _ | _
    · rw [horigin (by rw [h]; exact Bool.false_ne_true)]
      rfl
    · rfl
  have hdigests : (if m.digests.isSome then m.digests else none) = m.digests := by
    rcases m.digests with _ | ds <;> rfl
  have hnb : xmetaNblocks m.stockStore.fileSize m.stockStore.bufferSize = m.nblocks :=
    hm.nblocks_eq.symm
  simp only [Xmeta.addBlockcrc, Xmeta.addDigest, Xmeta.addOrigin, Xmeta.addState,
    Xmeta.stockOnly, xmetaOfStore, hkeep, hdigests, hnb, Bool.false_or]
  rfl

/-! ## The whole record -/

theorem reads_xmetaEncodeSections (hm : m.WellFormed) (hr : m.Readable) :
    Scanner.Reads (xmetaDecodeSections (xmetaEncodePlan m).nsec.toNat m.stockOnly)
      (xmetaEncodeSections m) m.persisted := by
  have hnb : (((m.stockOnly.addState m).addOrigin m).addDigest m).nblocks = m.nblocks :=
    hm.nblocks_eq.symm
  have hstate := reads_xmetaEncodeState m.stockOnly m
  have horigin := reads_xmetaEncodeOrigin (m.stockOnly.addState m) hm
  have hdigest := reads_xmetaEncodeDigest ((m.stockOnly.addState m).addOrigin m) hr.digests_le
  have hblockcrc := reads_xmetaEncodeBlockcrc hm hr.nblocks_le hnb
  have hall := reads_xmetaDecodeSections_add hstate
    (reads_xmetaDecodeSections_add horigin (reads_xmetaDecodeSections_add hdigest hblockcrc))
  rw [addSections_stockOnly hm] at hall
  rw [toNat_nsec, xmetaEncodeSections]
  exact hall

theorem reads_xmetaDecodeExtHeader (nsec : UInt16) :
    Scanner.Reads xmetaDecodeExtHeader (xmetaEncodeExtHeader nsec) nsec := by
  refine (Scanner.reads_word _ xmetaExtMagic).bind ?_
  rw [if_neg (not_not.mpr rfl)]
  exact (Scanner.reads_word _ xmetaExtVersion).bind (Scanner.reads_word _ nsec)

theorem xmetaEncode_eq (hm : m.WellFormed) :
    xmetaEncode m = .ok (xmetaEncodeStockPrefix m (xmetaBitmapLen m.nblocks) ++
      (xmetaEncodeExtHeader (xmetaEncodePlan m).nsec ++ xmetaEncodeSections m)) := by
  rw [xmetaEncode, if_neg (Int64.not_le.mpr hm.bufferSize_pos)]
  rfl

theorem xmetaDecode_encoded (hm : m.WellFormed) (hr : m.Readable)
    {bytes : List UInt8} (h : xmetaEncode m = .ok bytes) :
    xmetaDecode bytes = .ok m.persisted := by
  rw [xmetaEncode_eq hm] at h
  cases h
  have hstock := reads_xmetaDecodeStock hm hr.fileSize_nonneg hr.nblocks_le
  have hheader := reads_xmetaDecodeExtHeader (xmetaEncodePlan m).nsec
  have hsections := (reads_xmetaEncodeSections hm hr).run
  simp only [xmetaDecode, xmetaDecodeExtSections]
  rw [hstock]
  simp only
  rw [hheader]
  simp only
  rw [hsections]

theorem xmetaDecode_stockPrefix (hm : m.WellFormed) (hf : 0 ≤ m.fileSize)
    (hn : m.nblocks.toNat ≤ xmetaMaxBlocks) :
    xmetaDecode (xmetaEncodeStockPrefix m (xmetaBitmapLen m.nblocks)) = .ok m.stockOnly := by
  have hempty : xmetaDecodeExtHeader [] = .error () := rfl
  simp only [xmetaDecode]
  rw [(reads_xmetaDecodeStock hm hf hn).run]
  simp only [xmetaDecodeExtSections, hempty]

theorem take_stockLen (hm : m.WellFormed) {bytes : List UInt8} (h : xmetaEncode m = .ok bytes) :
    bytes.take m.stockLen = xmetaEncodeStockPrefix m (xmetaBitmapLen m.nblocks) := by
  rw [xmetaEncode_eq hm] at h
  cases h
  rw [← xmetaEncodeStockPrefix_length hm, take_left]

/-- **The record round trip.** A well-formed record within the reader's bounds
is accepted, takes exactly the planned capacity, and decodes to itself with the
absent regions empty; its leading bytes alone decode to the same stock fields. -/
theorem xmetaDecode_xmetaEncode {m : Xmeta} (hm : m.WellFormed) (hr : m.Readable)
    (hastat : m.astatCount = 0 ∨ m.astatCount = 1) :
    ∃ bytes, xmetaEncode m = .ok bytes ∧ bytes.length = (xmetaEncodePlan m).cap ∧
      xmetaDecode bytes = .ok m.persisted ∧ m.persisted.astatCount = m.astatCount ∧
      bytes.take m.stockLen = xmetaEncodeStockPrefix m (xmetaBitmapLen m.nblocks) ∧
      ∃ s, xmetaDecode (bytes.take m.stockLen) = .ok s ∧ s.toXmetaStock = m.toXmetaStock ∧
        s.nblocks = m.nblocks ∧ s.bitmap = m.bitmap ∧ s.astatCount = m.astatCount ∧
        s.astat = m.persisted.astat := by
  have henc := xmetaEncode_eq hm
  have hcount : (if 0 < m.astatCount then (1 : Int32) else 0) = m.astatCount := by
    rcases hastat with h | h
    · rw [h]
      rfl
    · rw [h]
      rfl
  refine ⟨_, henc, xmetaEncode_length hm henc, xmetaDecode_encoded hm hr henc, hcount,
    take_stockLen hm henc, m.stockOnly, ?_, rfl, hm.nblocks_eq.symm, rfl, hcount, rfl⟩
  rw [take_stockLen hm henc]
  exact xmetaDecode_stockPrefix hm hr.fileSize_nonneg hr.nblocks_le

/-- A five-byte file in granules of two, dirty, with every region present. -/
def sampleXmeta : Xmeta :=
  { bufferSize := 2, fileSize := 5, creationTime := 7, noCksumTime := 0, accessCnt := 3,
    statusRaw := 1, toXmetaState := { XmetaState.zero with dirtyLo := 1, dirtyHi := 4 },
    etag := [97, 98], cksAlg := [109], cksHex := [48], astat := ⟨1, 2, 3, 4, 5, 6, 7, 8, 9⟩,
    astatCount := 1, nblocks := 3, bitmap := [5], haveState := true, haveBlockcrc := true,
    digests := some [1, 2, 3], blockcrc := some [10, 11, 12] }

theorem sampleXmeta_wellFormed : sampleXmeta.WellFormed where
  bufferSize_pos := by decide
  nblocks_eq := by decide
  bitmap_length := by decide
  etag_le := by decide
  cksAlg_le := by decide
  cksHex_le := by decide
  digests_lt := by
    intro ds hds
    rw [← Option.some.inj hds]
    decide
  blockcrc_length := by
    intro cs hcs
    rw [← Option.some.inj hcs]
    rfl

theorem sampleXmeta_readable : sampleXmeta.Readable where
  fileSize_nonneg := by decide
  nblocks_le := by decide
  digests_le := by
    intro ds hds
    rw [← Option.some.inj hds]
    decide

theorem xmetaDecode_xmetaEncode_sample :
    ∃ bytes, xmetaEncode sampleXmeta = .ok bytes ∧
      bytes.length = (xmetaEncodePlan sampleXmeta).cap ∧
      xmetaDecode bytes = .ok sampleXmeta.persisted ∧
      sampleXmeta.persisted.astatCount = sampleXmeta.astatCount ∧
      bytes.take sampleXmeta.stockLen =
        xmetaEncodeStockPrefix sampleXmeta (xmetaBitmapLen sampleXmeta.nblocks) ∧
      ∃ s, xmetaDecode (bytes.take sampleXmeta.stockLen) = .ok s ∧
        s.toXmetaStock = sampleXmeta.toXmetaStock ∧ s.nblocks = sampleXmeta.nblocks ∧
        s.bitmap = sampleXmeta.bitmap ∧ s.astatCount = sampleXmeta.astatCount ∧
        s.astat = sampleXmeta.persisted.astat :=
  xmetaDecode_xmetaEncode sampleXmeta_wellFormed sampleXmeta_readable (.inr rfl)

end BrixCache
