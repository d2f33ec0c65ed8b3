import BrixCache.Meta.Carrier

/-!
# Torn records

Where a cut of an encoded record is noticed. Every region but one is a stable
scanner that reads its bytes exactly, so a cut inside it is an error
(`Scanner.Stable.ne_ok_of_take`). The exception is the eight bytes of the
extension header: a record cut right before it, or inside it, is
indistinguishable from one that never had an extension, and decodes as the
clean record of its stock prefix.
-/

namespace BrixCache

open List

/-! ## The stock prefix -/

variable {m : Xmeta} {bytes : List UInt8} {k : ℕ}

theorem xmetaDecodeStock_insane (hm : m.WellFormed)
    (hinsane : m.fileSize < 0 ∨ xmetaMaxBlocks < m.nblocks.toNat) (rest : List UInt8) :
    xmetaDecodeStock (xmetaEncodeStockPrefix m (xmetaBitmapLen m.nblocks) ++ rest) =
      .error .foreign := by
  have hnb : (xmetaOfStore m.stockStore).nblocks = m.nblocks := hm.nblocks_eq.symm
  have hstore : ∀ more, xmetaDecodeStockStore (Wire.put xmetaStockVersion ++
      (Wire.put m.stockStore ++ (Wire.put (crc32cValue (Wire.put m.stockStore)) ++ more))) =
      .error .foreign := by
    intro more
    refine (Scanner.reads_word _ xmetaStockVersion).bind_error ?_
    rw [if_neg (not_not.mpr rfl)]
    refine (Scanner.reads_take_of_length (Wire.put_length m.stockStore)).bind_error ?_
    refine (Scanner.reads_word _ (crc32cValue (Wire.put m.stockStore))).bind_error ?_
    rw [if_neg (not_not.mpr rfl)]
    simp only [Wire.get_put, hnb]
    by_cases hbad : m.stockStore.bufferSize ≤ 0 ∨ m.stockStore.fileSize < 0 ∨
        m.stockStore.astatSize < 0
    · rw [if_pos hbad]
      rfl
    · have hbig : xmetaMaxBlocks < m.nblocks.toNat := by
        rcases hinsane with h | h
        · exact absurd (.inr (.inl h)) hbad
        · exact h
      rw [if_neg hbad, if_pos hbig]
      rfl
  rw [xmetaDecodeStock, xmetaEncodeStockPrefix]
  simp only [append_assoc]
  exact Scanner.bind_error (hstore _)

theorem xmetaDecode_ne_ok_of_stock (k : ℕ)
    (h : ∀ x, xmetaDecodeStock (bytes.take k) ≠ .ok x) (m' : Xmeta) :
    xmetaDecode (bytes.take k) ≠ .ok m' := by
  rw [xmetaDecode]
  rcases hs : xmetaDecodeStock (bytes.take k) with e | x
  · simp
  · exact absurd hs (h x)

/-! ## The extension header -/

theorem xmetaDecodeExtHeader_stable : Scanner.Stable xmetaDecodeExtHeader := by
  refine (Scanner.stable_word _).bind fun magic => ?_
  refine (Scanner.stable_fail _).ite ?_
  exact (Scanner.stable_word _).bind fun version => Scanner.stable_word _

theorem xmetaDecodeExtSections_cut (m : Xmeta) (nsec : UInt16) {j : ℕ} (hj : j < 8) :
    xmetaDecodeExtSections m ((xmetaEncodeExtHeader nsec).take j) = .ok m := by
  have hlt : j < (xmetaEncodeExtHeader nsec).length := by
    rw [xmetaEncodeExtHeader_length]
    exact hj
  have hcut := xmetaDecodeExtHeader_stable.ne_ok_of_take (reads_xmetaDecodeExtHeader nsec) hlt
  rw [xmetaDecodeExtSections]
  rcases hx : xmetaDecodeExtHeader ((xmetaEncodeExtHeader nsec).take j) with e | x
  · rfl
  · exact absurd hx (hcut x)

/-! ## The sections -/

theorem xmetaDecodeOneSection_oversize (m : Xmeta) (type : UInt16) {payload : List UInt8}
    (hbig : xmetaMaxSection < payload.length) (hlt : payload.length < 2 ^ 32)
    (rest : List UInt8) :
    xmetaDecodeOneSection m (xmetaPutSection type payload ++ rest) = .error xmetaTorn := by
  have hplen : (UInt32.ofNat payload.length).toNat = payload.length := by
    rw [UInt32.toNat_ofNat']
    exact Nat.mod_eq_of_lt hlt
  rw [xmetaPutSection]
  simp only [append_assoc]
  refine (Scanner.reads_take_of_length (Wire.put_length type)).bind_error ?_
  refine (Scanner.reads_take_of_length (Wire.put_length (0 : UInt16))).bind_error ?_
  refine (Scanner.reads_take_of_length
    (Wire.put_length (UInt32.ofNat payload.length))).bind_error ?_
  simp only [Wire.get_put, hplen]
  rw [if_pos hbig]
  rfl

section

variable (hm : m.WellFormed)
include hm

/-- A record whose digest list is over the bound has its section loop fail:
STATE and ORIGIN are read, then the turn for DIGEST stops it. -/
theorem xmetaDecodeSections_oversize {ds : List UInt8}
    (hds : m.digests = some ds) (hbig : xmetaMaxSection < ds.length) :
    xmetaDecodeSections (xmetaEncodePlan m).nsec.toNat m.stockOnly (xmetaEncodeSections m) =
      .error xmetaTorn := by
  have hfront := reads_xmetaDecodeSections_add (reads_xmetaEncodeState m.stockOnly m)
    (reads_xmetaEncodeOrigin (m.stockOnly.addState m) hm)
  have hover := xmetaDecodeOneSection_oversize ((m.stockOnly.addState m).addOrigin m)
    xmetaSecDigest hbig (hm.digests_lt ds hds) (xmetaEncodeBlockcrc m)
  have hdigest : xmetaEncodeDigest m = xmetaPutSection xmetaSecDigest ds := by
    rw [xmetaEncodeDigest, hds]
  rw [toNat_nsec, ← Nat.add_assoc, xmetaDecodeSections_add, xmetaEncodeSections, hdigest,
    ← append_assoc]
  refine hfront.bind_error ?_
  rw [hds, Option.isSome_some, if_pos rfl, Nat.add_comm, xmetaDecodeSections]
  exact Scanner.bind_error hover

theorem xmetaDecodeSections_whole {r : Xmeta} (hf : 0 ≤ m.fileSize)
    (hn : m.nblocks.toNat ≤ xmetaMaxBlocks) {rest : List UInt8}
    (h : xmetaDecodeSections (xmetaEncodePlan m).nsec.toNat m.stockOnly
      (xmetaEncodeSections m) = .ok (r, rest)) : rest = [] := by
  rcases Classical.em (∀ ds, m.digests = some ds → ds.length ≤ xmetaMaxSection) with hd | hd
  · rw [(reads_xmetaEncodeSections hm ⟨hf, hn, hd⟩).run] at h
    exact (Prod.mk.inj (Except.ok.inj h)).2.symm
  · push Not at hd
    obtain ⟨ds, hds, hbig⟩ := hd
    rw [xmetaDecodeSections_oversize hm hds hbig] at h
    cases h

theorem xmetaDecodeExtSections_torn (hf : 0 ≤ m.fileSize)
    (hn : m.nblocks.toNat ≤ xmetaMaxBlocks) {j : ℕ} (hj : j < (xmetaEncodeSections m).length)
    (m' : Xmeta) :
    xmetaDecodeExtSections m.stockOnly
      (xmetaEncodeExtHeader (xmetaEncodePlan m).nsec ++ (xmetaEncodeSections m).take j) ≠
      .ok m' := by
  have hdrop : (xmetaEncodeSections m).drop j ≠ [] := by
    intro hnil
    have hle := drop_eq_nil_iff.mp hnil
    omega
  have hcut := (xmetaDecodeSections_stable (xmetaEncodePlan m).nsec.toNat m.stockOnly).ne_ok_of_cut
    (p := (xmetaEncodeSections m).take j) hdrop (by
      intro r rest h
      rw [take_append_drop] at h
      exact xmetaDecodeSections_whole hm hf hn h)
  rw [xmetaDecodeExtSections, reads_xmetaDecodeExtHeader]
  simp only
  rcases hs : xmetaDecodeSections (xmetaEncodePlan m).nsec.toNat m.stockOnly
    ((xmetaEncodeSections m).take j) with e | x
  · simp
  · exact absurd hs (hcut x)

/-! ## Every cut -/

theorem xmetaDecode_cut_header (hf : 0 ≤ m.fileSize)
    (hn : m.nblocks.toNat ≤ xmetaMaxBlocks)
    (henc : xmetaEncode m = .ok bytes) (hlo : m.stockLen ≤ k)
    (hhi : k < m.stockLen + 8) :
    xmetaDecode (bytes.take k) = .ok m.stockOnly := by
  have hlen := xmetaEncodeStockPrefix_length hm
  have hheader := xmetaEncodeExtHeader_length (xmetaEncodePlan m).nsec
  rw [xmetaEncode_eq hm] at henc
  cases henc
  rw [take_append, take_of_length_le (by omega), hlen,
    take_append_of_le_length (by omega), xmetaDecode, reads_xmetaDecodeStock hm hf hn]
  exact xmetaDecodeExtSections_cut m.stockOnly _ (by omega)

theorem xmetaDecode_cut_stock (hf : 0 ≤ m.fileSize)
    (hn : m.nblocks.toNat ≤ xmetaMaxBlocks)
    (henc : xmetaEncode m = .ok bytes) (hk : k < m.stockLen) (m' : Xmeta) :
    xmetaDecode (bytes.take k) ≠ .ok m' := by
  have hlt : k < (xmetaEncodeStockPrefix m (xmetaBitmapLen m.nblocks)).length := by
    rw [xmetaEncodeStockPrefix_length hm]
    exact hk
  have htake : bytes.take k =
      (xmetaEncodeStockPrefix m (xmetaBitmapLen m.nblocks)).take k := by
    rw [← take_stockLen hm henc, take_take, Nat.min_eq_left (Nat.le_of_lt hk)]
  refine xmetaDecode_ne_ok_of_stock k ?_ m'
  rw [htake]
  exact xmetaDecodeStock_stable.ne_ok_of_take (reads_xmetaDecodeStock hm hf hn) hlt

theorem xmetaDecode_cut_insane
    (hinsane : m.fileSize < 0 ∨ xmetaMaxBlocks < m.nblocks.toNat)
    (henc : xmetaEncode m = .ok bytes) (k : ℕ) (m' : Xmeta) :
    xmetaDecode (bytes.take k) ≠ .ok m' := by
  refine xmetaDecode_ne_ok_of_stock k ?_ m'
  rintro ⟨r, rest⟩ hok
  have hwhole := xmetaDecodeStock_stable _ _ _ hok (bytes.drop k)
  rw [take_append_drop] at hwhole
  rw [xmetaEncode_eq hm] at henc
  cases henc
  rw [xmetaDecodeStock_insane hm hinsane] at hwhole
  cases hwhole

theorem xmetaDecode_cut_sections (hf : 0 ≤ m.fileSize)
    (hn : m.nblocks.toNat ≤ xmetaMaxBlocks)
    (henc : xmetaEncode m = .ok bytes) (hlo : m.stockLen + 8 ≤ k)
    (hk : k < bytes.length) (m' : Xmeta) :
    xmetaDecode (bytes.take k) ≠ .ok m' := by
  have hlen := xmetaEncodeStockPrefix_length hm
  have hheader := xmetaEncodeExtHeader_length (xmetaEncodePlan m).nsec
  rw [xmetaEncode_eq hm] at henc
  cases henc
  rw [length_append, length_append] at hk
  rw [take_append, take_of_length_le (by omega), take_append,
    take_of_length_le (by omega), xmetaDecode, reads_xmetaDecodeStock hm hf hn]
  exact xmetaDecodeExtSections_torn hm hf hn (by omega) m'

end

/-- **Which cuts are refused.** For every strict prefix of an encoded record,
decoding fails exactly when the cut is before the end of the stock prefix or
past the extension header, or the record was out of the reader's bounds to
begin with. -/
theorem xmetaDecode_cut_iff {m : Xmeta} (hm : m.WellFormed) {bytes : List UInt8}
    (henc : xmetaEncode m = .ok bytes) {k : ℕ} (hk : k < bytes.length) :
    (∀ m', xmetaDecode (bytes.take k) ≠ .ok m') ↔
      k < m.stockLen ∨ m.stockLen + 8 ≤ k ∨ m.fileSize < 0 ∨
        xmetaMaxBlocks < m.nblocks.toNat := by
  constructor
  · -- inside the window a sane record decodes
    intro hne
    rcases Nat.lt_or_ge k m.stockLen with hlo | hlo
    · exact .inl hlo
    · rcases Nat.lt_or_ge k (m.stockLen + 8) with hhi | hhi
      · rcases Int64.lt_or_le m.fileSize 0 with hf | hf
        · exact .inr (.inr (.inl hf))
        · rcases Nat.lt_or_ge xmetaMaxBlocks m.nblocks.toNat with hn | hn
          · exact .inr (.inr (.inr hn))
          · exact absurd (xmetaDecode_cut_header hm hf hn henc hlo hhi) (hne m.stockOnly)
      · exact .inr (.inl hhi)
  · intro hcut
    rcases Int64.lt_or_le m.fileSize 0 with hf | hf
    · exact xmetaDecode_cut_insane hm (.inl hf) henc k
    · rcases Nat.lt_or_ge xmetaMaxBlocks m.nblocks.toNat with hn | hn
      · exact xmetaDecode_cut_insane hm (.inr hn) henc k
      · rcases hcut with hlo | hhi | hneg | hbig
        · exact xmetaDecode_cut_stock hm hf hn henc hlo
        · exact xmetaDecode_cut_sections hm hf hn henc hhi hk
        · exact absurd hneg (Int64.not_lt.mpr hf)
        · exact absurd hbig (Nat.not_lt.mpr hn)

/-- Cut a byte behind the header of its sections, the record is refused. -/
theorem xmetaDecode_cut_iff_sample :
    ∃ bytes, xmetaEncode sampleXmeta = .ok bytes ∧ sampleXmeta.stockLen + 9 < bytes.length ∧
      ∀ m', xmetaDecode (bytes.take (sampleXmeta.stockLen + 9)) ≠ .ok m' := by
  have henc := xmetaEncode_eq sampleXmeta_wellFormed
  have hk : sampleXmeta.stockLen + 9 < (xmetaEncodeStockPrefix sampleXmeta
      (xmetaBitmapLen sampleXmeta.nblocks) ++ (xmetaEncodeExtHeader
        (xmetaEncodePlan sampleXmeta).nsec ++ xmetaEncodeSections sampleXmeta)).length := by
    rw [length_append, xmetaEncodeStockPrefix_length sampleXmeta_wellFormed,
      Nat.add_lt_add_iff_left]
    decide +kernel
  exact ⟨_, henc, hk, (xmetaDecode_cut_iff sampleXmeta_wellFormed henc hk).mpr
    (.inr (.inl (Nat.le_succ _)))⟩

/-- A dirty record whose fresh sidecar was cut right after the stock prefix
loads, and loads clean. -/
theorem torn_sidecar_loads_clean :
    ∃ bytes s, xmetaEncode sampleXmeta = .ok bytes ∧ sampleXmeta.haveState = true ∧
      sampleXmeta.dirtyLo < sampleXmeta.dirtyHi ∧ sampleXmeta.stockLen < bytes.length ∧
      xmetaDecode (bytes.take sampleXmeta.stockLen) = .ok s ∧
      xmetaPathLoad ⟨[], some (xmetaPathWriteSidecar none bytes
        (.cut sampleXmeta.stockLen)).2⟩ = .ok s ∧
      s.dirtyLo = s.dirtyHi := by
  have henc := xmetaEncode_eq sampleXmeta_wellFormed
  have hnonneg : 0 ≤ sampleXmeta.fileSize := by decide
  have hblocks : sampleXmeta.nblocks.toNat ≤ xmetaMaxBlocks := by decide
  have hdec := xmetaDecode_cut_header sampleXmeta_wellFormed hnonneg hblocks henc
    (Nat.le_refl _) (Nat.lt_add_of_pos_right (by decide))
  have hstockPart := take_stockLen sampleXmeta_wellFormed henc
  have hlen := xmetaEncodeStockPrefix_length sampleXmeta_wellFormed
  have hstock : sampleXmeta.stockLen = 117 := by decide
  refine ⟨_, sampleXmeta.stockOnly, henc, rfl, by decide, ?_, hdec, ?_, rfl⟩
  · rw [length_append, hlen, length_append, xmetaEncodeExtHeader_length]
    omega
  · rw [xmetaPathWriteSidecar_fresh, xmetaPathLoad, if_neg (fun hx => Nat.lt_irrefl 0 hx.1)]
    simp only [xmetaPathReadSidecar]
    rw [if_neg]
    · exact hdec
    · have hmax : 117 < xmetaMaxSection := by decide
      rw [hstockPart, hlen, hstock]
      omega

end BrixCache
