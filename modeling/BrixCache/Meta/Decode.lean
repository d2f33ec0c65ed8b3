import BrixCache.Lib.Scanner
import BrixCache.Meta.Encode

/-!
# Decoding the metadata record

`fs/meta/xmeta_decode.c`. The stock prefix must be whole: a wrong version, a
short region or an insane size is a foreign file, a checksum mismatch a torn
one. The extension is optional: nothing after the prefix, or anything that does
not start with a whole extension header, leaves the stock part standing. Once
the header has been read every section must be there and check out.
-/

namespace BrixCache

open List

/-- A failed decode. -/
inductive XmetaFault : Type where
  /-- `BRIX_XMETA_ERR`: a hard error, with the number it sets -/
  | err : Errno → XmetaFault
  /-- `BRIX_XMETA_FOREIGN`: not a record, treat as nothing recorded -/
  | foreign : XmetaFault
  deriving DecidableEq

/-- The checksum mismatch and every other damage to a recognized record. -/
def xmetaTorn : XmetaFault := .err .ebadmsg

/-! ## The stock prefix -/

/-- The record the stock Store describes, before its bitmap is read. -/
def xmetaOfStore (store : XmetaStockStore) : Xmeta :=
  { toXmetaStock := store.toXmetaStock, toXmetaState := XmetaState.zero,
    toXmetaOrigin := XmetaOrigin.empty, astat := XmetaAStat.zero, astatCount := store.astatSize,
    nblocks := xmetaNblocks store.fileSize store.bufferSize, bitmap := [], haveState := false,
    haveBlockcrc := false, digests := none, blockcrc := none }

def xmetaDecodeStockStore : Scanner UInt8 XmetaFault Xmeta := do
  let version : Int32 ← Scanner.word .foreign
  if version ≠ xmetaStockVersion then Scanner.fail .foreign
  else do
    let bytes ← Scanner.take .foreign (Wire.width XmetaStockStore)
    let crc : UInt32 ← Scanner.word .foreign
    if crc ≠ crc32cValue bytes then Scanner.fail xmetaTorn
    else
      let store : XmetaStockStore := Wire.get bytes
      if store.bufferSize ≤ 0 ∨ store.fileSize < 0 ∨ store.astatSize < 0 then
        Scanner.fail .foreign
      else if xmetaMaxBlocks < (xmetaOfStore store).nblocks.toNat then Scanner.fail .foreign
      else pure (xmetaOfStore store)

/-- The access record loop of `xmeta_decode_bitmap_astat` from turn `i` on:
keep the first record, checksum them all. The counter is a 16-bit word, so a
count it cannot reach is only stopped by the end of the buffer. -/
def xmetaDecodeAStats (count : Int32) (i : ℕ) (want : UInt32) (first : XmetaAStat)
    (bs : List UInt8) : Except XmetaFault ((UInt32 × XmetaAStat) × List UInt8) :=
  if ((i % 2 ^ 16 : ℕ) : ℤ) < count.toInt then
    if bs.length < 56 then .error .foreign
    else
      let a := bs.take 56
      xmetaDecodeAStats count (i + 1) (crc32cExtend want a)
        (if i % 2 ^ 16 = 0 then Wire.get a else first) (bs.drop 56)
  else .ok ((want, first), bs)
termination_by bs.length
decreasing_by
  rw [length_drop]
  omega

def xmetaDecodeBitmapAStat (m : Xmeta) : Scanner UInt8 XmetaFault Xmeta := do
  let bitmap ← Scanner.take .foreign (xmetaBitmapLen m.nblocks)
  let (want, astat) ← (xmetaDecodeAStats m.astatCount 0 (crc32cValue bitmap) XmetaAStat.zero :
    Scanner UInt8 XmetaFault (UInt32 × XmetaAStat))
  let crc : UInt32 ← Scanner.word .foreign
  if crc ≠ want then Scanner.fail xmetaTorn
  else pure { m with bitmap := bitmap, astat := astat }

/-- The stock prefix: the Store, then the bitmap and the access records. -/
def xmetaDecodeStock : Scanner UInt8 XmetaFault Xmeta := do
  let m ← xmetaDecodeStockStore
  xmetaDecodeBitmapAStat m

/-! ## The sections -/

def xmetaDecodeState (m : Xmeta) (p : List UInt8) : Option Xmeta :=
  if p.length < Wire.width XmetaState then none
  else some { m with haveState := true, toXmetaState := Wire.get (p.take (Wire.width XmetaState)) }

/-- The origin section, its three lengths bounded. -/
def xmetaDecodeOrigin (m : Xmeta) (p : List UInt8) : Option Xmeta :=
  match p with
  | el :: al :: cl :: _ :: strings =>
    if 128 < el.toNat ∨ 16 < al.toNat ∨ 129 < cl.toNat ∨
        p.length < xmetaOriginFixed + el.toNat + al.toNat + cl.toNat then none
    else some { m with
      etag := strings.take el.toNat
      cksAlg := (strings.drop el.toNat).take al.toNat
      cksHex := (strings.drop (el.toNat + al.toNat)).take cl.toNat }
  | _ => none

def xmetaDecodeDigest (m : Xmeta) (p : List UInt8) : Option Xmeta :=
  some { m with digests := some p }

/-- The block checksum section. -/
def xmetaDecodeBlockcrc (m : Xmeta) (p : List UInt8) : Option Xmeta :=
  if p.length < 16 then none
  else
    let nb : UInt64 := Wire.get ((p.drop 8).take 8)
    if nb ≠ m.nblocks ∨ p.length ≠ 16 + nb.toNat * 4 then none
    else some { m with
      blockcrc := some (Wire.getAll nb.toNat (p.drop 16))
      haveBlockcrc := true }

/-- `xmeta_decode_section`: unknown types are skipped. -/
def xmetaDecodeSection (m : Xmeta) (type : UInt16) (p : List UInt8) : Option Xmeta :=
  if type = xmetaSecState then xmetaDecodeState m p
  else if type = xmetaSecOrigin then xmetaDecodeOrigin m p
  else if type = xmetaSecDigest then xmetaDecodeDigest m p
  else if type = xmetaSecBlockcrc then xmetaDecodeBlockcrc m p
  else some m

/-- One turn of the section loop of `xmeta_decode_ext_sections`. -/
def xmetaDecodeOneSection (m : Xmeta) : Scanner UInt8 XmetaFault Xmeta := do
  let type ← Scanner.take xmetaTorn 2
  let rsv ← Scanner.take xmetaTorn 2
  let len ← Scanner.take xmetaTorn 4
  let plen : UInt32 := Wire.get len
  if xmetaMaxSection < plen.toNat then Scanner.fail xmetaTorn
  else do
    let payload ← Scanner.take xmetaTorn plen.toNat
    let crc : UInt32 ← Scanner.word xmetaTorn
    if crc ≠ crc32cValue (type ++ rsv ++ len ++ payload) then Scanner.fail xmetaTorn
    else
      match xmetaDecodeSection m (Wire.get type) payload with
      | none => Scanner.fail xmetaTorn
      | some m' => pure m'

/-- The section loop, for `n` sections. -/
def xmetaDecodeSections : ℕ → Xmeta → Scanner UInt8 XmetaFault Xmeta
  | 0, m => pure m
  | n + 1, m => do
    let m' ← xmetaDecodeOneSection m
    xmetaDecodeSections n m'

/-- The extension header: the magic is checked, the version only read. -/
def xmetaDecodeExtHeader : Scanner UInt8 Unit UInt16 := do
  let magic : UInt32 ← Scanner.word ()
  if magic ≠ xmetaExtMagic then Scanner.fail ()
  else do
    let _version : UInt16 ← Scanner.word ()
    Scanner.word ()

/-- `xmeta_decode_ext_sections` on what follows the stock prefix. -/
def xmetaDecodeExtSections (m : Xmeta) (rest : List UInt8) : Except XmetaFault Xmeta :=
  match xmetaDecodeExtHeader rest with
  | .error _ => .ok m   -- no trailer, or a foreign one: the stock part stands
  | .ok (nsec, rest) =>
    match xmetaDecodeSections nsec.toNat m rest with
    | .error e => .error e
    | .ok (m', _) => .ok m'

/-- The stock prefix, then the sections. -/
def xmetaDecode (buf : List UInt8) : Except XmetaFault Xmeta :=
  match xmetaDecodeStock buf with
  | .error e => .error e
  | .ok (m, rest) => xmetaDecodeExtSections m rest

/-! ## Stability

Everything up to the extension header is a stable scanner, and so is the
section loop behind it. The one place where appended bytes change a verdict is
between the two. -/

theorem xmetaDecodeStockStore_stable : Scanner.Stable xmetaDecodeStockStore := by
  refine (Scanner.stable_word _).bind fun version => ?_
  refine (Scanner.stable_fail _).ite ?_
  refine (Scanner.stable_take _ _).bind fun bytes => ?_
  refine (Scanner.stable_word _).bind fun crc => ?_
  refine (Scanner.stable_fail _).ite ?_
  refine (Scanner.stable_fail _).ite ?_
  exact (Scanner.stable_fail _).ite (Scanner.stable_pure _)

theorem xmetaDecodeAStats_stable (count : Int32) (i : ℕ) (want : UInt32) (first : XmetaAStat) :
    Scanner.Stable (xmetaDecodeAStats count i want first :
      Scanner UInt8 XmetaFault (UInt32 × XmetaAStat)) := by
  intro bs
  induction hn : bs.length using Nat.strong_induction_on generalizing bs i want first with
  | _ n ih =>
    intro rest a h more
    rw [xmetaDecodeAStats] at h ⊢
    by_cases hc : ((i % 2 ^ 16 : ℕ) : ℤ) < count.toInt
    · rw [if_pos hc] at h ⊢
      by_cases hlt : bs.length < 56
      · rw [if_pos hlt] at h
        cases h
      · have hlt' : ¬ (bs ++ more).length < 56 := by
          rw [length_append]
          omega
        have hdrop : (bs.drop 56).length < n := by
          rw [length_drop]
          omega
        rw [if_neg hlt] at h
        rw [if_neg hlt', take_append_of_le_length (by omega),
          drop_append_of_le_length (by omega)]
        exact ih _ hdrop (i + 1) _ _ _ rfl rest a h more
    · rw [if_neg hc] at h ⊢
      obtain ⟨rfl, rfl⟩ := Prod.mk.inj (Except.ok.inj h)
      rfl

theorem xmetaDecodeBitmapAStat_stable (m : Xmeta) :
    Scanner.Stable (xmetaDecodeBitmapAStat m) := by
  refine (Scanner.stable_take _ _).bind fun bitmap => ?_
  refine (xmetaDecodeAStats_stable _ _ _ _).bind fun ⟨want, astat⟩ => ?_
  refine (Scanner.stable_word _).bind fun crc => ?_
  exact (Scanner.stable_fail _).ite (Scanner.stable_pure _)

theorem xmetaDecodeStock_stable : Scanner.Stable xmetaDecodeStock :=
  xmetaDecodeStockStore_stable.bind xmetaDecodeBitmapAStat_stable

theorem xmetaDecodeOneSection_stable (m : Xmeta) : Scanner.Stable (xmetaDecodeOneSection m) := by
  refine (Scanner.stable_take _ _).bind fun type => ?_
  refine (Scanner.stable_take _ _).bind fun rsv => ?_
  refine (Scanner.stable_take _ _).bind fun len => ?_
  refine (Scanner.stable_fail _).ite ?_
  refine (Scanner.stable_take _ _).bind fun payload => ?_
  refine (Scanner.stable_word _).bind fun crc => ?_
  refine (Scanner.stable_fail _).ite ?_
  rcases xmetaDecodeSection m (Wire.get type) payload with _ | m'
  · exact Scanner.stable_fail _
  · exact Scanner.stable_pure _

theorem xmetaDecodeSections_stable (n : ℕ) (m : Xmeta) :
    Scanner.Stable (xmetaDecodeSections n m) := by
  induction n generalizing m with
  | zero => exact Scanner.stable_pure m
  | succ n ih => exact (xmetaDecodeOneSection_stable m).bind ih

/-! ## Geometry

Whatever bytes are accepted, the record that comes back has the block count of its file and a
bitmap for it. -/

/-- The block count is that of the file, and the bitmap has its length. -/
structure Xmeta.Geometry (m : Xmeta) : Prop where
  nblocks_eq : m.nblocks = xmetaNblocks m.fileSize m.bufferSize
  bitmap_length : m.bitmap.length = xmetaBitmapLen m.nblocks

theorem xmetaDecodeStockStore_yields :
    Scanner.Yields (fun m => m.nblocks = xmetaNblocks m.fileSize m.bufferSize)
      xmetaDecodeStockStore := by
  refine (Scanner.yields_true _).bind fun version _ => ?_
  refine .ite (fun _ => Scanner.yields_fail _) fun _ => ?_
  refine (Scanner.yields_true _).bind fun bytes _ => ?_
  refine (Scanner.yields_true _).bind fun crc _ => ?_
  refine .ite (fun _ => Scanner.yields_fail _) fun _ => ?_
  refine .ite (fun _ => Scanner.yields_fail _) fun _ => ?_
  exact .ite (fun _ => Scanner.yields_fail _) fun _ => Scanner.yields_pure rfl

theorem xmetaDecodeStock_yields : Scanner.Yields Xmeta.Geometry xmetaDecodeStock := by
  refine xmetaDecodeStockStore_yields.bind fun m hm => ?_
  refine (Scanner.yields_take _ _).bind fun bitmap hlen => ?_
  refine (Scanner.yields_true _).bind fun ⟨want, astat⟩ _ => ?_
  refine (Scanner.yields_true _).bind fun crc _ => ?_
  exact .ite (fun _ => Scanner.yields_fail _) fun _ => Scanner.yields_pure ⟨hm, hlen⟩

/-- A section keeps the geometry sound. -/
theorem xmetaDecodeSection_geometry {m m' : Xmeta} {type : UInt16} {p : List UInt8}
    (h : xmetaDecodeSection m type p = some m') (hm : m.Geometry) : m'.Geometry := by
  unfold xmetaDecodeSection at h
  split at h
  · unfold xmetaDecodeState at h
    split at h
    · cases h
    · cases h
      exact ⟨hm.nblocks_eq, hm.bitmap_length⟩
  · split at h
    · unfold xmetaDecodeOrigin at h
      split at h
      · split at h
        · cases h
        · cases h
          exact ⟨hm.nblocks_eq, hm.bitmap_length⟩
      · cases h
    · split at h
      · cases h
        exact ⟨hm.nblocks_eq, hm.bitmap_length⟩
      · split at h
        · unfold xmetaDecodeBlockcrc at h
          split at h
          · cases h
          · dsimp only at h
            split at h
            · cases h
            · cases h
              exact ⟨hm.nblocks_eq, hm.bitmap_length⟩
        · cases h
          exact hm

theorem xmetaDecodeSections_yields (n : ℕ) {m : Xmeta} (hm : m.Geometry) :
    Scanner.Yields Xmeta.Geometry (xmetaDecodeSections n m) := by
  induction n generalizing m with
  | zero => exact Scanner.yields_pure hm
  | succ n ih =>
    have hone : Scanner.Yields Xmeta.Geometry (xmetaDecodeOneSection m) := by
      refine (Scanner.yields_true _).bind fun type _ => ?_
      refine (Scanner.yields_true _).bind fun rsv _ => ?_
      refine (Scanner.yields_true _).bind fun len _ => ?_
      refine .ite (fun _ => Scanner.yields_fail _) fun _ => ?_
      refine (Scanner.yields_true _).bind fun payload _ => ?_
      refine (Scanner.yields_true _).bind fun crc _ => ?_
      refine .ite (fun _ => Scanner.yields_fail _) fun _ => ?_
      rcases hsec : xmetaDecodeSection m (Wire.get type) payload with _ | m'
      · exact Scanner.yields_fail _
      · exact Scanner.yields_pure (xmetaDecodeSection_geometry hsec hm)
    exact hone.bind fun m' hm' => ih hm'

theorem xmetaDecode_geometry {buf : List UInt8} {m : Xmeta} (h : xmetaDecode buf = .ok m) :
    m.Geometry := by
  rw [xmetaDecode] at h
  rcases hstock : xmetaDecodeStock buf with e | ⟨m₀, rest⟩
  · rw [hstock] at h
    cases h
  · have hm₀ := xmetaDecodeStock_yields _ _ _ hstock
    rw [hstock] at h
    simp only [xmetaDecodeExtSections] at h
    rcases hext : xmetaDecodeExtHeader rest with e | ⟨nsec, rest'⟩
    · rw [hext] at h
      exact Except.ok.inj h ▸ hm₀
    · rw [hext] at h
      simp only at h
      rcases hsecs : xmetaDecodeSections nsec.toNat m₀ rest' with e | ⟨m₁, rest''⟩
      · rw [hsecs] at h
        cases h
      · rw [hsecs] at h
        exact Except.ok.inj h ▸ xmetaDecodeSections_yields _ hm₀ _ _ _ hsecs

end BrixCache
