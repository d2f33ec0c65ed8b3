import BrixCache.Cas.PackModel
import BrixCache.Core.Ascii

/-!
# The packed store refines its records

`CasPack.Rep` says which records the files and the table of a store stand for.
Every call keeps such a relation: it makes moves on the records, and what a `get`
would answer afterwards is what the call promises.
-/

namespace BrixCache

open Function List

variable {cfg : PackCfg}

/-- The store's files and table stand for the records `s`; the journal ends in
`torn`, at most a record cut short. -/
structure CasPack.Rep (cfg : PackCfg) (p : CasPack) (s : RecStore) (torn : Bytes) : Prop where
  idx : p.idx = (idxFraming cfg.crc).encodeAll s.journal ++ torn
  torn : (idxFraming cfg.crc).Torn torn
  segs : ∀ n, s.lo ≤ n → n ≤ s.hi →
    p.segs.lookup n = some ((segFraming cfg.crc).encodeAll (s.segs n))
  gone : ∀ n, n < s.lo ∨ s.hi < n → p.segs.lookup n = none
  tab : ∀ key, (p.tab.lookup key).map Prod.fst = s.tab key
  lo : p.segLo = s.lo
  hi : p.segHi = s.hi
  off : p.segOff = s.off cfg

/-- The bytes after the journal's last record stay as they are, unless they go or a
write of a journal record fails. -/
def PackIo.Tears (io : PackIo) (torn torn' : Bytes) : Prop :=
  torn' = [] ∨ torn' = torn ∨ io.idxFail ≠ none

namespace PackIo.Tears

variable {io : PackIo} {torn torn' torn'' : Bytes}

theorem keeps : io.Tears torn torn := .inr (.inl rfl)

theorem fails {n : ℕ} (h : io.idxFail = some n) : io.Tears torn torn' :=
  .inr (.inr (by rw [h]; exact Option.some_ne_none n))

theorem trans (h : io.Tears torn torn') (h' : io.Tears torn' torn'') : io.Tears torn torn'' := by
  obtain h' | rfl | h' := h'
  · exact .inl h'
  · exact h
  · exact .inr (.inr h')

theorem eq_nil (h : io.Tears [] torn') (hidx : io.idxFail = none) : torn' = [] := by
  obtain h | h | h := h
  · exact h
  · exact h
  · exact absurd hidx h

end PackIo.Tears

namespace CasPack

/-! ## Reading -/

/-- A record that stands at an offset is read back whole. -/
theorem readVerifiedFd_at {rs : List SegRec} {off : ℕ} {r : SegRec} (seg : ℕ)
    (hat : (segFraming cfg.crc).At rs off r) (hr : r.Fits) :
    readVerifiedFd cfg ((segFraming cfg.crc).encodeAll rs) r.key (r.loc seg off) = r.content cfg := by
  obtain ⟨rest, hrest⟩ := hat.drop []
  rw [append_nil] at hrest
  have hend : off + (r.encode cfg.crc).length ≤ ((segFraming cfg.crc).encodeAll rs).length :=
    hat.end_le
  rw [SegRec.encode_length] at hend
  have hbytes : ((segFraming cfg.crc).encodeAll rs).drop off =
      segHeader r.key.length r.fmt (cfg.crc r.data).toNat r.data.length r.raw ++
        (r.key ++ (r.data ++ rest)) := by
    rw [hrest]
    simp only [segFraming, SegRec.encode, append_assoc]
  obtain ⟨hmagic, hklen, hfmt, hcrc, hstored, -⟩ :=
    segHeader_fields hr (cfg.crc r.data) (r.key ++ (r.data ++ rest))
  simp only [← hbytes] at hmagic hklen hfmt hcrc hstored
  have hkey : (((segFraming cfg.crc).encodeAll rs).drop off).drop segHdr =
      r.key ++ (r.data ++ rest) := by
    rw [hbytes, drop_left' (segHeader_length _ _ _ _ _)]
  have hdata : (((segFraming cfg.crc).encodeAll rs).drop (off + segHdr + r.key.length)).take
      r.data.length = r.data := by
    rw [Nat.add_assoc, ← drop_drop, ← drop_drop, hkey, drop_left, take_left]
  have hheader : storedHeaderRead ((segFraming cfg.crc).encodeAll rs) r.key (r.loc seg off) = true := by
    simp only [storedHeaderRead, SegRec.loc, hmagic, hklen, hfmt, hstored, hkey, take_left,
      decide_true, Bool.and_true]
    exact decide_eq_true (by omega)
  have hpayload : storedPayloadRead cfg ((segFraming cfg.crc).encodeAll rs) r.key (r.loc seg off) =
      some r.data := by
    simp only [storedPayloadRead, SegRec.loc, hdata, hcrc]
    exact if_pos ⟨by omega, trivial⟩
  rw [readVerifiedFd, if_pos hheader, hpayload, SegRec.content]
  rfl

theorem setActive_lookup_self (p : CasPack) (bytes : Bytes) (off : ℕ) :
    (p.setActive bytes off).segs.lookup p.segHi = some bytes :=
  AList.lookup_insert p.segs

theorem setActive_lookup_ne (p : CasPack) (bytes : Bytes) (off : ℕ) {n : ℕ}
    (hn : n ≠ p.segHi) : (p.setActive bytes off).segs.lookup n = p.segs.lookup n :=
  AList.lookup_insert_ne hn

theorem rollActive_lookup_ne (p : CasPack) {n : ℕ} (hn : n ≠ p.segHi + 1) :
    p.rollActive.segs.lookup n = p.segs.lookup n :=
  AList.lookup_insert_ne hn

theorem segWrite_end (bytes data : Bytes) :
    segWrite bytes bytes.length data = bytes ++ data := by
  rw [segWrite, take_length, drop_eq_nil_of_le (Nat.le_add_right _ _), append_nil]

namespace Rep

variable {hist : Bytes → Bytes → Prop} {lossy : Bool} {p : CasPack} {s : RecStore}
  {torn : Bytes}

variable {key d : Bytes} {loc : PackLoc} {r : SegRec} {io : PackIo}

section

variable (hrep : p.Rep cfg s torn)
include hrep

theorem lookup_fst {slot : PackLoc × UInt32}
    (h : p.tab.lookup key = some slot) : s.tab key = some slot.1 := by
  rw [← hrep.tab key, h]
  rfl

theorem lookup_none (h : p.tab.lookup key = none) :
    s.tab key = none := by
  rw [← hrep.tab key, h]
  rfl

theorem lookup_some
    (h : s.tab key = some loc) : ∃ hits, p.tab.lookup key = some (loc, hits) := by
  rw [← hrep.tab key, Option.map_eq_some_iff] at h
  obtain ⟨⟨loc', hits⟩, hlookup, rfl⟩ := h
  exact ⟨hits, hlookup⟩

theorem readVerified
    (hlo : s.lo ≤ loc.seg) (hhi : loc.seg ≤ s.hi) (hr : s.Stands cfg key loc r) (hfits : r.Fits) :
    p.readVerified cfg key loc = r.content cfg := by
  rw [CasPack.readVerified, hrep.segs loc.seg hlo hhi]
  have h := readVerifiedFd_at loc.seg hr.at_off hfits
  rw [hr.key, hr.loc] at h
  exact h

theorem getBytes_stands (hlive : s.tab key = some loc) (hlo : s.lo ≤ loc.seg) (hhi : loc.seg ≤ s.hi)
    (hr : s.Stands cfg key loc r) (hd : r.Of cfg hist d) : p.getBytes cfg key = some d := by
  obtain ⟨hits, hlookup⟩ := hrep.lookup_some hlive
  have hraw : d.length = loc.raw := by
    rw [← hr.loc]
    exact hd.raw
  rw [getBytes, hlookup]
  simp only [hrep.readVerified hlo hhi hr hd.fits, hd.content, Option.map_some]
  rw [take_of_length_le (Nat.le_of_eq hraw)]

theorem live (hinv : s.Inv cfg hist)
    (h : s.tab key = some loc) : ∃ r d, s.Stands cfg key loc r ∧ r.Of cfg hist d ∧
      s.Reads cfg key d ∧ p.readVerified cfg key loc = some d ∧ d.take loc.raw = d := by
  obtain ⟨r, d, hr, hd, hreads⟩ := hinv.live h
  have hread := hrep.readVerified (hinv.live_lo key loc h) (hinv.stands_le hr) hr hd.fits
  have hraw : d.length = loc.raw := by
    rw [← hr.loc]
    exact hd.raw
  exact ⟨r, d, hr, hd, hreads, by rw [hread, hd.content], take_of_length_le (by omega)⟩

theorem getBytes_iff (hinv : s.Inv cfg hist) :
    p.getBytes cfg key = some d ↔ s.Reads cfg key d := by
  rw [getBytes]
  cases hlookup : p.tab.lookup key with
  | none =>
    have htab := hrep.lookup_none hlookup
    constructor
    · intro h
      cases h
    · rintro ⟨loc, r, hloc, -⟩
      rw [htab] at hloc
      cases hloc
  | some slot =>
    obtain ⟨loc, hits⟩ := slot
    obtain ⟨r, d', hr, hd', hreads, hread, htake⟩ := hrep.live hinv (hrep.lookup_fst hlookup)
    simp only [hread, Option.map_some, htake, Option.some.injEq]
    constructor
    · rintro rfl
      exact hreads
    · intro h
      exact hinv.reads_unique hreads h

theorem has_eq (hinv : s.Inv cfg hist) (key : Bytes) :
    p.has key = (p.getBytes cfg key).isSome := by
  rw [has, getBytes]
  cases hlookup : p.tab.lookup key with
  | none => rfl
  | some slot =>
    obtain ⟨loc, hits⟩ := slot
    obtain ⟨r, d', -, -, -, hread, -⟩ := hrep.live hinv (hrep.lookup_fst hlookup)
    simp only [hread, Option.map_some, Option.isSome_some]

theorem getBytes_congr {p' : CasPack} {s' : RecStore} {torn' : Bytes}
    (hinv : s.Inv cfg hist) (hrep' : p'.Rep cfg s' torn')
    (hinv' : s'.Inv cfg hist)
    (h : ∀ d, s'.Reads cfg key d ↔ s.Reads cfg key d) :
    p'.getBytes cfg key = p.getBytes cfg key := by
  apply Option.ext
  intro d
  rw [hrep'.getBytes_iff hinv', hrep.getBytes_iff hinv]
  exact h d

/-! ## Appending -/

theorem segBytes_active (hinv : s.Inv cfg hist) :
    p.segBytes p.segHi = (segFraming cfg.crc).encodeAll (s.segs s.hi) := by
  rw [segBytes, hrep.hi, hrep.segs s.hi hinv.lo_le (Nat.le_refl _)]
  rfl

theorem ne_of_gone (hinv : s.Inv cfg hist) {n : ℕ}
    (hn : n < s.lo ∨ s.hi < n) : n ≠ p.segHi := by
  rw [hrep.hi]
  rintro rfl
  obtain h | h := hn
  · exact Nat.not_lt_of_le hinv.lo_le h
  · exact Nat.lt_irrefl _ h

theorem rollActive (hinv : s.Inv cfg hist) :
    p.rollActive.Rep cfg s.roll torn := by
  have hnew : p.segs.lookup (p.segHi + 1) = none :=
    hrep.gone _ (.inr (by rw [hrep.hi]; exact Nat.lt_succ_self _))
  have hnil : s.segs (s.hi + 1) = [] := hinv.beyond _ (Nat.lt_succ_self _)
  refine ⟨hrep.idx, hrep.torn, ?_, ?_, hrep.tab, hrep.lo, congrArg (· + 1) hrep.hi, ?_⟩
  · intro n hlo hhi
    by_cases hn : n = p.segHi + 1
    · subst hn
      rw [CasPack.rollActive, AList.lookup_insert, hnew, hrep.hi]
      exact congrArg (fun rs => some ((segFraming cfg.crc).encodeAll rs)) hnil.symm
    · rw [rollActive_lookup_ne p hn]
      have hle : n ≤ s.hi + 1 := hhi
      rw [hrep.hi] at hn
      exact hrep.segs n hlo (by omega)
  · intro n hn
    have hgone : n < s.lo ∨ s.hi < n := hn.imp_right fun h => Nat.lt_of_succ_lt h
    have hne : n ≠ p.segHi + 1 := by
      rw [hrep.hi]
      rintro rfl
      obtain h | h := hn
      · exact Nat.not_lt_of_le (Nat.le_succ_of_le hinv.lo_le) h
      · exact Nat.lt_irrefl _ h
    rw [rollActive_lookup_ne p hne]
    exact hrep.gone n hgone
  · change 0 = ((segFraming cfg.crc).encodeAll (s.segs (s.hi + 1))).length
    rw [hnil]
    rfl

theorem appended (hinv : s.Inv cfg hist) (r : SegRec) :
    (p.setActive (segWrite (p.segBytes p.segHi) p.segOff (r.encode cfg.crc))
      (p.segOff + (r.encode cfg.crc).length)).Rep cfg (s.orphan r) torn := by
  have hbytes : segWrite (p.segBytes p.segHi) p.segOff (r.encode cfg.crc) =
      (segFraming cfg.crc).encodeAll (s.segs s.hi ++ [r]) := by
    rw [hrep.segBytes_active hinv, hrep.off, RecStore.off, segWrite_end, Framing.encodeAll_append,
      Framing.encodeAll_cons, Framing.encodeAll_nil, append_nil]
    rfl
  refine ⟨hrep.idx, hrep.torn, ?_, ?_, hrep.tab, hrep.lo, hrep.hi, ?_⟩
  · intro n hlo hhi
    by_cases hn : n = s.hi
    · subst hn
      have hself := p.setActive_lookup_self (segWrite (p.segBytes p.segHi) p.segOff
        (r.encode cfg.crc)) (p.segOff + (r.encode cfg.crc).length)
      rw [RecStore.orphan_segs_hi, ← hbytes, ← hself, hrep.hi]
    · rw [RecStore.orphan_segs_ne s r hn, setActive_lookup_ne p _ _ (by rw [hrep.hi]; exact hn)]
      exact hrep.segs n hlo hhi
  · intro n hn
    rw [setActive_lookup_ne p _ _ (hrep.ne_of_gone hinv hn)]
    exact hrep.gone n hn
  · change p.segOff + _ = ((segFraming cfg.crc).encodeAll ((s.orphan r).segs s.hi)).length
    rw [RecStore.orphan_segs_hi, Framing.encodeAll_append, length_append, Framing.encodeAll_cons,
      Framing.encodeAll_nil, append_nil, hrep.off]
    rfl

theorem cutBack (hinv : s.Inv cfg hist) (data : Bytes) :
    (p.setActive ((segWrite (p.segBytes p.segHi) p.segOff data).take p.segOff) p.segOff).Rep cfg s
      torn := by
  have hbytes : (segWrite (p.segBytes p.segHi) p.segOff data).take p.segOff =
      (segFraming cfg.crc).encodeAll (s.segs s.hi) := by
    rw [hrep.segBytes_active hinv, hrep.off, RecStore.off, segWrite_end, take_left]
  refine ⟨hrep.idx, hrep.torn, ?_, ?_, hrep.tab, hrep.lo, hrep.hi, hrep.off⟩
  · intro n hlo hhi
    by_cases hn : n = s.hi
    · subst hn
      rw [← hbytes, ← hrep.hi]
      exact setActive_lookup_self p _ _
    · rw [setActive_lookup_ne p _ _ (by rw [hrep.hi]; exact hn)]
      exact hrep.segs n hlo hhi
  · intro n hn
    rw [setActive_lookup_ne p _ _ (hrep.ne_of_gone hinv hn)]
    exact hrep.gone n hn

end

theorem rollFor (lossy : Bool) (hrep : p.Rep cfg s torn) (hinv : s.Inv cfg hist) {size : ℕ}
    (hsize : size < 2 ^ 64)
    (hhi : (p.rollFor cfg size).segHi < 100000000) :
    ∃ s₁, RecStore.Moves cfg hist lossy s s₁ ∧ (p.rollFor cfg size).Rep cfg s₁ torn ∧
      s₁.tab = s.tab ∧ s₁.segs = s.segs ∧ s₁.off cfg + size < 2 ^ 64 := by
  have hmax := cfg.segMax_lt
  have hoff := hrep.off
  rw [CasPack.rollFor] at hhi ⊢
  split
  · rename_i hroll
    rw [if_pos hroll] at hhi
    have hhi' : s.hi + 1 < 100000000 := by
      rw [← hrep.hi]
      exact hhi
    refine ⟨s.roll, Relation.ReflTransGen.single (.roll hhi'), hrep.rollActive hinv, rfl, rfl, ?_⟩
    have hzero : s.roll.off cfg = 0 := by
      change ((segFraming cfg.crc).encodeAll (s.segs (s.hi + 1))).length = 0
      rw [hinv.beyond _ (Nat.lt_succ_self _)]
      rfl
    omega
  · exact ⟨s, .refl, hrep, rfl, rfl, by omega⟩

/-! ## Journaling -/

theorem idxFits (hinv : s.Inv cfg hist) (op : UInt8)
    (hr : s.Stands cfg key loc r) : (IdxRec.mk op key loc).Fits := by
  have hfits := hinv.fits hr.at_off.mem
  have hseg := hinv.stands_le hr
  have hhi := hinv.hi_lt
  have hend : loc.off + (r.encode cfg.crc).length ≤
      ((segFraming cfg.crc).encodeAll (s.segs loc.seg)).length := hr.at_off.end_le
  have hsize := hinv.size loc.seg
  have hdata : loc.stored = r.data.length := congrArg PackLoc.stored hr.loc.symm
  have hraw : loc.raw = r.raw := congrArg PackLoc.raw hr.loc.symm
  have hrawlt := hfits.raw
  rw [SegRec.encode_length, hr.key] at hend
  refine ⟨hr.key ▸ hfits.key, ?_, ?_, ?_⟩
  · change loc.seg < 2 ^ 32
    omega
  · change loc.raw < 2 ^ 64
    omega
  · change loc.off + (segHdr + key.length) + loc.stored < 2 ^ 64
    omega

theorem journaled {s' : RecStore} {r : IdxRec} {tab : PackTab} {liveBytes : ℤ}
    (hrep : p.Rep cfg s []) (hsegs : s'.segs = s.segs) (hlo : s'.lo = s.lo) (hhi : s'.hi = s.hi)
    (hjournal : s'.journal = s.journal ++ [r])
    (htab : ∀ key, (tab.lookup key).map Prod.fst = s'.tab key) :
    CasPack.Rep cfg
      { p with
        idx := p.idx ++ r.encode cfg.crc
        tab := tab
        liveBytes := liveBytes } s' [] where
  idx := by
    rw [hjournal, Framing.encodeAll_append, Framing.encodeAll_cons, Framing.encodeAll_nil,
      append_nil, append_nil, hrep.idx, append_nil]
    rfl
  torn := hrep.torn
  segs := by
    rw [hsegs, hlo, hhi]
    exact hrep.segs
  gone := by
    rw [hlo, hhi]
    exact hrep.gone
  tab := htab
  lo := hrep.lo.trans hlo.symm
  hi := hrep.hi.trans hhi.symm
  off := by
    rw [RecStore.off, hsegs, hhi]
    exact hrep.off

section

variable (hrep : p.Rep cfg s torn)
include hrep

theorem tornAppend {r : IdxRec} (hr : r.Fits) {n : ℕ}
    (hwhole : torn = [] ∨ n = 0) : ∃ torn', CasPack.Rep cfg
      { p with idx := p.idx ++ (r.encode cfg.crc).dropLast.take n } s torn' := by
  obtain rfl | rfl := hwhole
  · have hlen : ((r.encode cfg.crc).dropLast.take n).length < (r.encode cfg.crc).length := by
      have hpos := Framing.encode_pos (F := idxFraming cfg.crc) hr
      have hpos' : 0 < (r.encode cfg.crc).length := hpos
      rw [length_take, length_dropLast]
      omega
    have htake : (r.encode cfg.crc).dropLast.take n =
        (r.encode cfg.crc).take ((r.encode cfg.crc).dropLast.take n).length :=
      prefix_iff_eq_take.mp ((List.take_prefix _ _).trans (List.dropLast_prefix _))
    have htorn : (idxFraming cfg.crc).Torn ((r.encode cfg.crc).dropLast.take n) := by
      rw [htake]
      exact Framing.Torn.of_lt (F := idxFraming cfg.crc) hr hlen
    refine ⟨(r.encode cfg.crc).dropLast.take n, ?_, htorn, hrep.segs, hrep.gone, hrep.tab, hrep.lo,
      hrep.hi, hrep.off⟩
    change p.idx ++ _ = _
    rw [hrep.idx, append_nil]
  · refine ⟨torn, ?_, hrep.torn, hrep.segs, hrep.gone, hrep.tab, hrep.lo, hrep.hi, hrep.off⟩
    change p.idx ++ _ = _
    rw [take_zero, append_nil]
    exact hrep.idx

theorem tab_erase (key key' : Bytes) :
    ((p.tab.erase key).lookup key').map Prod.fst = (s.lose key).tab key' := by
  by_cases hkey : key' = key
  · subst hkey
    rw [AList.lookup_erase]
    exact (update_self key' none s.tab).symm
  · rw [AList.lookup_erase_ne hkey, hrep.tab key']
    exact (update_of_ne hkey none s.tab).symm

theorem tab_insert (key key' : Bytes) (loc : PackLoc)
    (hits : UInt32) : ((p.tab.insert key (loc, hits)).lookup key').map Prod.fst =
      update s.tab key (some loc) key' := by
  by_cases hkey : key' = key
  · subst hkey
    rw [AList.lookup_insert, update_self]
    rfl
  · rw [AList.lookup_insert_ne hkey, hrep.tab key', update_of_ne hkey]

theorem drop (hinv : s.Inv cfg hist) (hlive : s.tab key = some loc) (hidx : torn = [] ∨ io.idxFail = some 0)
    (hlossy : lossy = true ∨ io.idxFail = none) :
    ∃ s' torn', io.Tears torn torn' ∧ RecStore.Move cfg hist lossy s s' ∧
      (p.drop cfg io key loc).Rep cfg s' torn' ∧
      ∀ key' d, s'.Reads cfg key' d ↔ key' ≠ key ∧ s.Reads cfg key' d := by
  obtain ⟨r, d, hr, -, -⟩ := hinv.live hlive
  cases hfail : io.idxFail with
  | none =>
    obtain rfl | hidx := hidx
    · refine ⟨s.del key loc, [], .inl rfl, .del hlive, ?_, fun key' d => RecStore.reads_lose⟩
      rw [CasPack.drop, idxAppend, hfail]
      exact hrep.journaled rfl rfl rfl rfl (hrep.tab_erase key)
    · rw [hfail] at hidx
      cases hidx
  | some n =>
    have hn : torn = [] ∨ n = 0 := hidx.imp_right fun h => by
      rw [hfail] at h
      exact Option.some.inj h
    have hloss : lossy = true := by
      obtain h | h := hlossy
      · exact h
      · rw [hfail] at h
        cases h
    obtain ⟨torn', htorn⟩ := hrep.tornAppend (idxFits hinv opDel hr) hn
    refine ⟨s.lose key, torn', .fails hfail, .lose hloss, ?_, fun key' d => RecStore.reads_lose⟩
    rw [CasPack.drop, idxAppend, hfail]
    exact ⟨htorn.idx, htorn.torn, htorn.segs, htorn.gone, htorn.tab_erase key, htorn.lo, htorn.hi,
      htorn.off⟩

end

/-! ## Storing -/

theorem orphan_reads (hinv : s.Inv cfg hist) (hr : r.Of cfg hist d)
    (hsize : s.off cfg + (r.encode cfg.crc).length < 2 ^ 64)
    (hsame : ∀ d', s.Reads cfg r.key d' → d' = d) {d' : Bytes} :
    (s.orphan r).Reads cfg key d' ↔ s.Reads cfg key d' := by
  have horphan := hinv.orphan hr hsize hsame
  constructor
  · exact RecStore.reads_sub hinv (fun _ _ h => h.orphan r) (fun _ _ h => horphan.fits h)
      fun _ h => h
  · exact RecStore.reads_mono (fun _ _ h => h.orphan r) fun _ h => h

theorem store_reads (hinv : s.Inv cfg hist) (hr : r.Of cfg hist d)
    (hsize : s.off cfg + (r.encode cfg.crc).length < 2 ^ 64)
    (hsame : ∀ d', s.Reads cfg r.key d' → d' = d) {d' : Bytes} :
    (s.store cfg r).Reads cfg key d' ↔
      (key = r.key ∧ d' = d) ∨ (key ≠ r.key ∧ s.Reads cfg key d') := by
  have hstore := hinv.store hr hsize hsame
  have hself : (s.store cfg r).tab r.key = some (r.loc s.hi (s.off cfg)) :=
    update_self r.key _ s.tab
  have hnew : (s.store cfg r).Reads cfg r.key d := ⟨_, r, hself, s.orphan_stands cfg r, hr.content⟩
  by_cases hkey : key = r.key
  · subst hkey
    refine ⟨fun h => .inl ⟨rfl, hstore.reads_unique h hnew⟩, ?_⟩
    rintro (⟨-, rfl⟩ | ⟨hne, -⟩)
    · exact hnew
    · exact absurd rfl hne
  · have hother : (s.store cfg r).tab key = s.tab key := update_of_ne hkey _ s.tab
    have hiff : (s.store cfg r).Reads cfg key d' ↔ s.Reads cfg key d' := by
      refine Iff.trans ?_ (orphan_reads hinv hr hsize hsame)
      rw [RecStore.Reads, RecStore.Reads, hother]
      exact Iff.rfl
    rw [hiff]
    exact ⟨fun h => .inr ⟨hkey, h⟩, fun h => h.elim (fun h => absurd h.1 hkey) fun h => h.2⟩

theorem append (lossy : Bool) (hrep : p.Rep cfg s torn) (hinv : s.Inv cfg hist) (io : PackIo)
    (hr : r.Fits) (hhi : (p.appendRecord cfg io r).1.segHi < 100000000) :
    ∃ s₁, RecStore.Moves cfg hist lossy s s₁ ∧ s₁.tab = s.tab ∧ s₁.segs = s.segs ∧
      s₁.off cfg + (r.encode cfg.crc).length < 2 ^ 64 ∧
      ((∃ q, p.appendRecord cfg io r = (q, none) ∧ q.Rep cfg s₁ torn) ∨
        ∃ q, p.appendRecord cfg io r = (q, some (r.loc s₁.hi (s₁.off cfg))) ∧
          q.Rep cfg (s₁.orphan r) torn) := by
  have hsize : (r.encode cfg.crc).length < 2 ^ 64 := by
    have hdata := hr.data
    have hkey := hr.key.2
    rw [SegRec.encode_length, segHdr]
    rw [packKmax] at hkey
    omega
  have hroll : (p.appendRecord cfg io r).1.segHi =
      (p.rollFor cfg (r.encode cfg.crc).length).segHi := by
    rw [appendRecord]
    cases io.segFail <;> rfl
  obtain ⟨s₁, hmoves, hrep₁, htab, hsegs, hoff⟩ :=
    hrep.rollFor lossy hinv hsize (hroll ▸ hhi)
  refine ⟨s₁, hmoves, htab, hsegs, hoff, ?_⟩
  have hinv₁ := hmoves.inv hinv
  cases hfail : io.segFail with
  | some n =>
    refine .inl ⟨_, ?_, hrep₁.cutBack hinv₁ ((r.encode cfg.crc).dropLast.take n)⟩
    rw [appendRecord, hfail]
  | none =>
    refine .inr ⟨_, ?_, hrep₁.appended hinv₁ r⟩
    rw [appendRecord, hfail, SegRec.loc, hrep₁.hi, hrep₁.off]

/-- **Storing a record**: `append_record`, then `idx_append`, then the table. It
stays out, stays behind unjournaled, or is live. -/
theorem storing (hrep : p.Rep cfg s torn) (hinv : s.Inv cfg hist) (io : PackIo)
    (hr : r.Of cfg hist d) (hsame : ∀ d', s.Reads cfg r.key d' → d' = d)
    (hidx : torn = [] ∨ io.idxFail = some 0) (hlossy : lossy = true ∨ io.idxFail = none)
    (hhi : (p.appendRecord cfg io r).1.segHi < 100000000) :
    ∃ s' torn', io.Tears torn torn' ∧ RecStore.Moves cfg hist lossy s s' ∧
      ((∃ q, p.appendRecord cfg io r = (q, none) ∧ q.Rep cfg s' torn' ∧
          ∀ key d', s'.Reads cfg key d' ↔ s.Reads cfg key d') ∨
        ∃ q loc, p.appendRecord cfg io r = (q, some loc) ∧
          ((∃ q', q.idxAppend cfg io opPut r.key loc = (q', false) ∧ q'.Rep cfg s' torn' ∧
              ∀ key d', s'.Reads cfg key d' ↔ s.Reads cfg key d') ∨
            ∃ q', q.idxAppend cfg io opPut r.key loc = (q', true) ∧
              (∀ hits liveBytes, CasPack.Rep cfg
                { q' with tab := q'.tab.insert r.key (loc, hits), liveBytes := liveBytes } s' torn') ∧
              ∀ key d', s'.Reads cfg key d' ↔
                (key = r.key ∧ d' = d) ∨ (key ≠ r.key ∧ s.Reads cfg key d'))) := by
  obtain ⟨s₁, hmoves, htab, hsegs, hsize, hcases⟩ := hrep.append lossy hinv io hr.fits hhi
  have hinv₁ := hmoves.inv hinv
  have hreads₁ : ∀ key d', s₁.Reads cfg key d' ↔ s.Reads cfg key d' := by
    intro key d'
    rw [RecStore.Reads, RecStore.Reads, htab]
    simp only [RecStore.Stands, hsegs]
  have hsame₁ : ∀ d', s₁.Reads cfg r.key d' → d' = d := fun d' h => hsame d' ((hreads₁ _ _).mp h)
  obtain ⟨q, heq, hq⟩ | ⟨q, heq, hq⟩ := hcases
  · exact ⟨s₁, torn, .keeps, hmoves, .inl ⟨q, heq, hq, hreads₁⟩⟩
  · have horphan := hinv₁.orphan hr hsize hsame₁
    cases hfail : io.idxFail with
    | none =>
      obtain rfl | hidx := hidx
      · refine ⟨s₁.store cfg r, [], .inl rfl, hmoves.tail (.store hr hsize hsame₁),
          .inr ⟨q, _, heq, .inr ⟨{ q with
            idx := q.idx ++ (IdxRec.mk opPut r.key (r.loc s₁.hi (s₁.off cfg))).encode cfg.crc },
            by rw [idxAppend, hfail], ?_, ?_⟩⟩⟩
        · intro hits liveBytes
          exact hq.journaled rfl rfl rfl rfl fun key => hq.tab_insert r.key key _ hits
        · intro key d'
          rw [store_reads hinv₁ hr hsize hsame₁, hreads₁]
      · rw [hfail] at hidx
        cases hidx
    | some n =>
      have hn : torn = [] ∨ n = 0 := hidx.imp_right fun h => by
        rw [hfail] at h
        exact Option.some.inj h
      have hloss : lossy = true := by
        obtain h | h := hlossy
        · exact h
        · rw [hfail] at h
          cases h
      obtain ⟨torn', htorn⟩ :=
        hq.tornAppend (idxFits horphan opPut (s₁.orphan_stands cfg r)) hn
      refine ⟨s₁.orphan r, torn', .fails hfail, hmoves.tail (.orphan hloss hr hsize hsame₁),
        .inr ⟨q, _, heq, .inl ⟨_, by rw [idxAppend, hfail], htorn, ?_⟩⟩⟩
      intro key d'
      rw [orphan_reads hinv₁ hr hsize hsame₁, hreads₁]

/-! ## Reaping -/

theorem lookup_dropSlots (tab : PackTab) (seg : ℕ) (key : Bytes) :
    (dropSlots tab seg).lookup key = (tab.lookup key).filter fun slot => !(slot.1.seg == seg) := by
  apply Option.ext
  intro slot
  rw [Option.filter_eq_some_iff]
  have hdrop : (dropSlots tab seg).lookup key = some slot ↔
      (⟨key, slot⟩ : Σ _ : Bytes, PackLoc × UInt32) ∈ (dropSlots tab seg).entries :=
    AList.mem_lookup_iff
  have htab : tab.lookup key = some slot ↔
      (⟨key, slot⟩ : Σ _ : Bytes, PackLoc × UInt32) ∈ tab.entries := AList.mem_lookup_iff
  rw [hdrop, htab, dropSlots, mem_filter]

theorem dropSeg (hrep : p.Rep cfg s torn) (h : p.segLo ≠ p.segHi) :
    (p.dropSeg h).Rep cfg s.dropSeg torn where
  idx := hrep.idx
  torn := hrep.torn
  segs n hlo hhi := by
    have hne : n ≠ p.segLo := by
      rw [hrep.lo]
      exact Nat.ne_of_gt hlo
    rw [CasPack.dropSeg, AList.lookup_erase_ne hne]
    exact hrep.segs n (Nat.le_of_succ_le hlo) hhi
  gone n hn := by
    rw [CasPack.dropSeg]
    by_cases hlo : n = p.segLo
    · subst hlo
      exact AList.lookup_erase _ _
    · rw [AList.lookup_erase_ne hlo]
      rw [hrep.lo] at hlo
      exact hrep.gone n (hn.imp_left fun h => Nat.lt_of_le_of_ne (Nat.le_of_lt_succ h) hlo)
  tab key := by
    change ((dropSlots p.tab p.segLo).lookup key).map Prod.fst =
      (s.tab key).filter fun loc => !(loc.seg == s.lo)
    rw [lookup_dropSlots, ← hrep.tab key, hrep.lo, Option.filter_map]
    rfl
  lo := congrArg (· + 1) hrep.lo
  hi := hrep.hi
  off := hrep.off

theorem idxCompact (lossy : Bool) (hrep : p.Rep cfg s torn) (io : PackIo) (hscans : io.Scans) :
    ∃ s' torn', io.Tears torn torn' ∧ RecStore.Moves cfg hist lossy s s' ∧
      (p.idxCompact cfg io).Rep cfg s' torn' ∧
      ∀ key d, s'.Reads cfg key d ↔ s.Reads cfg key d := by
  rw [CasPack.idxCompact]
  split
  · exact ⟨s, torn, .keeps, .refl, hrep, fun key d => Iff.rfl⟩
  · let slots := (io.order p.tab.entries).map fun slot => (slot.1, slot.2.1)
    have hslots : ∀ key loc, (key, loc) ∈ slots ↔ s.tab key = some loc := by
      intro key loc
      rw [← hrep.tab key, Option.map_eq_some_iff, mem_map]
      constructor
      · rintro ⟨slot, hslot, heq⟩
        cases heq
        exact ⟨slot.2, AList.mem_lookup_iff.mpr ((hscans _).mem_iff.mp hslot), rfl⟩
      · rintro ⟨slot, hslot, rfl⟩
        exact ⟨⟨key, slot⟩, (hscans _).mem_iff.mpr (AList.mem_lookup_iff.mp hslot), rfl⟩
    refine ⟨s.compact slots, [], .inl rfl, .single (.compact hslots), ⟨?_, Framing.Torn.nil,
      hrep.segs, hrep.gone, hrep.tab, hrep.lo, hrep.hi, hrep.off⟩, fun key d => Iff.rfl⟩
    change (idxFraming cfg.crc).encodeAll (putsOf (io.order p.tab.entries)) =
      (idxFraming cfg.crc).encodeAll (slots.map _) ++ []
    rw [append_nil, putsOf, map_map]
    rfl

theorem reapLoop_segHi (target : ℤ) (p : CasPack) (dropped : ℕ) :
    p.segHi ≤ (reapLoop target p dropped).1.segHi := by
  induction p, dropped using reapLoop.induct target with
  | case1 p dropped hover h hoff =>
    rw [reapLoop, if_pos hover, dif_pos h, if_pos hoff]
  | case2 p dropped hover h hoff ih =>
    rw [reapLoop, if_pos hover, dif_pos h, if_neg hoff]
    exact Nat.le_of_succ_le ih
  | case3 p dropped hover h ih =>
    rw [reapLoop, if_pos hover, dif_neg h]
    exact ih
  | case4 p dropped hover =>
    rw [reapLoop, if_neg hover]

theorem reapLoop (lossy : Bool) {target : ℤ} {p : CasPack} (dropped : ℕ) (hrep : p.Rep cfg s torn)
    (hinv : s.Inv cfg hist) (hhi : (CasPack.reapLoop target p dropped).1.segHi < 100000000) :
    ∃ s', RecStore.Moves cfg hist lossy s s' ∧
      (CasPack.reapLoop target p dropped).1.Rep cfg s' torn ∧
      ∀ key d, s'.Reads cfg key d → s.Reads cfg key d := by
  induction p, dropped using CasPack.reapLoop.induct target generalizing s with
  | case1 p dropped hover h hoff =>
    rw [CasPack.reapLoop, if_pos hover, dif_pos h, if_pos hoff]
    exact ⟨s, .refl, hrep, fun key d hd => hd⟩
  | case2 p dropped hover h hoff ih =>
    rw [CasPack.reapLoop, if_pos hover, dif_pos h, if_neg hoff] at hhi ⊢
    have hroll : s.hi + 1 < 100000000 := by
      have hle := reapLoop_segHi target p.rollActive dropped
      rw [← hrep.hi]
      exact Nat.lt_of_le_of_lt hle hhi
    have hmove : RecStore.Move cfg hist lossy s s.roll := .roll hroll
    obtain ⟨s', hmoves, hrep', hreads⟩ := ih (hrep.rollActive hinv) (hmove.inv hinv) hhi
    exact ⟨s', .head hmove hmoves, hrep', hreads⟩
  | case3 p dropped hover h ih =>
    rw [CasPack.reapLoop, if_pos hover, dif_neg h] at hhi ⊢
    have hlo : s.lo < s.hi := by
      rw [← hrep.lo, ← hrep.hi]
      exact Nat.lt_of_le_of_ne p.lo_le h
    have hmove : RecStore.Move cfg hist lossy s s.dropSeg := .dropSeg hlo
    obtain ⟨s', hmoves, hrep', hreads⟩ := ih (hrep.dropSeg h) (hmove.inv hinv) hhi
    exact ⟨s', .head hmove hmoves, hrep', fun key d hd => RecStore.reads_dropSeg (hreads key d hd)⟩
  | case4 p dropped hover =>
    rw [CasPack.reapLoop, if_neg hover]
    exact ⟨s, .refl, hrep, fun key d hd => hd⟩

theorem reapLocked_segHi (p : CasPack) (io : PackIo) (target : ℤ) :
    (p.reapLocked cfg io target).segHi = (CasPack.reapLoop target p 0).1.segHi := by
  simp only [CasPack.reapLocked]
  split
  · rw [CasPack.idxCompact]
    split <;> rfl
  · rfl

theorem enforceQuota_segHi (p : CasPack) (io : PackIo) :
    p.segHi ≤ (p.enforceQuota cfg io).segHi := by
  rw [CasPack.enforceQuota]
  split
  · rw [reapLocked_segHi]
    exact reapLoop_segHi _ p 0
  · exact Nat.le_refl _

theorem reapLocked (lossy : Bool) (hrep : p.Rep cfg s torn) (hinv : s.Inv cfg hist)
    (hscans : io.Scans) {target : ℤ} (hhi : (p.reapLocked cfg io target).segHi < 100000000) :
    ∃ s' torn', io.Tears torn torn' ∧ RecStore.Moves cfg hist lossy s s' ∧
      (p.reapLocked cfg io target).Rep cfg s' torn' ∧
      ∀ key d, s'.Reads cfg key d → s.Reads cfg key d := by
  obtain ⟨s₁, hmoves, hrep₁, hreads₁⟩ :=
    hrep.reapLoop lossy 0 hinv (reapLocked_segHi p io target ▸ hhi)
  simp only [CasPack.reapLocked]
  split
  · obtain ⟨s', torn', htears, hmoves', hrep', hreads'⟩ := hrep₁.idxCompact lossy io hscans
    exact ⟨s', torn', htears, hmoves.trans hmoves', hrep',
      fun key d hd => hreads₁ key d ((hreads' key d).mp hd)⟩
  · exact ⟨s₁, torn, .keeps, hmoves, hrep₁, hreads₁⟩

theorem enforceQuota (lossy : Bool) (hrep : p.Rep cfg s torn) (hinv : s.Inv cfg hist)
    (hscans : io.Scans) (hhi : (p.enforceQuota cfg io).segHi < 100000000) :
    ∃ s' torn', io.Tears torn torn' ∧ RecStore.Moves cfg hist lossy s s' ∧
      (p.enforceQuota cfg io).Rep cfg s' torn' ∧
      (∀ key d, s'.Reads cfg key d → s.Reads cfg key d) ∧
      (cfg.quota ≤ 0 → ∀ key d, s.Reads cfg key d → s'.Reads cfg key d) := by
  rw [CasPack.enforceQuota] at hhi ⊢
  split
  · rename_i hover
    rw [if_pos hover] at hhi
    obtain ⟨s', torn', htears, hmoves, hrep', hreads⟩ :=
      hrep.reapLocked lossy hinv hscans hhi
    exact ⟨s', torn', htears, hmoves, hrep', hreads,
      fun hquota => absurd hover.1 (Int.not_lt.mpr hquota)⟩
  · exact ⟨s, torn, .keeps, .refl, hrep, fun key d hd => hd, fun _ key d hd => hd⟩

end Rep

end CasPack

end BrixCache
