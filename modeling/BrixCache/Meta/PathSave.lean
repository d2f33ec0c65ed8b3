import BrixCache.Meta.Torn
import BrixCache.Core.Ascii

/-!
# Saving over what a path already has

`brix_xmeta_path_save` of `fs/meta/xmeta_path.c` with the outcome of each of its calls. It
keeps one carrier and drops the other, but does not look at whether the other could be dropped.
A sidecar left behind is harmless, since a load reads the xattr first; an xattr left behind hides
the sidecar just written.
-/

namespace BrixCache

/-- `PATH_MAX` -/
def xmetaPathMax : ℕ := 4096

/-- `BRIX_XMETA_PATH_SIDECAR`, ".cinfo" -/
def xmetaPathSidecar : Bytes := [46, 99, 105, 110, 102, 111]

/-- The name of the record beside the file. -/
def xmetaSidecarPath (path : Bytes) : Option Bytes :=
  if (path ++ xmetaPathSidecar).length < xmetaPathMax then some (path ++ xmetaPathSidecar)
  else none

/-- What the calls of a save answer -/
structure XmetaSaveCalls : Type where
  set : SetXattr
  /-- `none`: the sidecar could not be opened -/
  write : Option SidecarWrite
  /-- `unlink` took the sidecar away -/
  unlinked : Bool
  /-- `removexattr` took the xattr away -/
  removed : Bool

/-- `xmeta_path_save_to_xattr`; `none` is `*done = 0`, write the sidecar. -/
def xmetaPathSaveToXattr (buf : Bytes) (set : SetXattr) : Option (Except Errno Unit) :=
  if buf.length ≤ xmetaPathXattrMax then
    match set with
    | .stored => some (.ok ())
    | .refused e => some (.error e)
    | .unfit => none
  else none

/-- The end of a save: `xmeta_path_write_sidecar`, then the xattr is dropped. -/
def xmetaPathSaveToSidecar (c : XmetaCarriers) (buf : Bytes) (calls : XmetaSaveCalls) :
    Except Errno Unit × XmetaCarriers :=
  match calls.write with
  | none => (.error .eio, c)
  | some write =>
    match xmetaPathWriteSidecar c.sidecar buf write with
    | (.error e, file) => (.error e, { c with sidecar := some file })
    | (.ok (), file) =>
      (.ok (), { xattr := if calls.removed then [] else c.xattr, sidecar := some file })

/-- `brix_xmeta_path_save` over the carriers `c` -/
def xmetaPathSaveOver (path : Bytes) (c : XmetaCarriers) (m : Xmeta)
    (calls : XmetaSaveCalls) : Except Errno Unit × XmetaCarriers :=
  match xmetaEncode m with
  | .error e => (.error e, c)
  | .ok buf =>
    match xmetaSidecarPath path with
    | none => (.error .enametoolong, c)
    | some _ =>
      match xmetaPathSaveToXattr buf calls.set with
      | some (.error e) => (.error e, c)
      | some (.ok ()) =>
        (.ok (), { xattr := buf, sidecar := if calls.unlinked then none else c.sidecar })
      | none => xmetaPathSaveToSidecar c buf calls

/-- `brix_xmeta_path_load` of a path -/
def xmetaPathLoadAt (path : Bytes) (c : XmetaCarriers) : Except XmetaFault Xmeta :=
  if 0 < c.xattr.length ∧ c.xattr.length ≤ xmetaPathXattrMax then xmetaDecode c.xattr
  else
    match xmetaSidecarPath path with
    | none => .error (.err .enametoolong)
    | some _ =>
      match c.sidecar with
      | none => .error .foreign
      | some file => xmetaPathReadSidecar file

/-- Does a load of these carriers stop at the xattr? -/
def XmetaCarriers.ReadsXattr (c : XmetaCarriers) : Prop :=
  0 < c.xattr.length ∧ c.xattr.length ≤ xmetaPathXattrMax

instance (c : XmetaCarriers) : Decidable c.ReadsXattr :=
  inferInstanceAs (Decidable (_ ∧ _))

/-- Does the record ride in the xattr? -/
def XmetaSaveCalls.InXattr (calls : XmetaSaveCalls) (m : Xmeta) : Prop :=
  (xmetaEncodePlan m).cap ≤ xmetaPathXattrMax ∧ calls.set = .stored

instance (calls : XmetaSaveCalls) (m : Xmeta) : Decidable (calls.InXattr m) :=
  inferInstanceAs (Decidable (_ ∧ _))

/-! ## Loading -/

variable {c : XmetaCarriers} {path : Bytes} {m : Xmeta}

theorem xmetaPathLoadAt_xattr (h : c.ReadsXattr) :
    xmetaPathLoadAt path c = xmetaDecode c.xattr := if_pos h

theorem xmetaPathLoadAt_sidecar {file : Bytes}
    (h : ¬ c.ReadsXattr) (hpath : (xmetaSidecarPath path).isSome)
    (hfile : c.sidecar = some file) : xmetaPathLoadAt path c = xmetaPathReadSidecar file := by
  obtain ⟨sc, hsc⟩ := Option.isSome_iff_exists.mp hpath
  have hnone : ¬ (0 < c.xattr.length ∧ c.xattr.length ≤ xmetaPathXattrMax) := h
  rw [xmetaPathLoadAt, if_neg hnone, hsc, hfile]

theorem xmetaDecode_encoded_iff (hm : m.WellFormed) {bytes : Bytes}
    (henc : xmetaEncode m = .ok bytes) : xmetaDecode bytes = .ok m.persisted ↔ m.Readable := by
  refine ⟨?_, fun hr => xmetaDecode_encoded hm hr henc⟩
  intro hdec
  have hwhole : bytes.take bytes.length = bytes := List.take_length
  have hf : 0 ≤ m.fileSize := by
    refine Int64.not_lt.mp fun hneg => ?_
    exact xmetaDecode_cut_insane hm (.inl hneg) henc bytes.length m.persisted (by rwa [hwhole])
  have hn : m.nblocks.toNat ≤ xmetaMaxBlocks := by
    refine Nat.le_of_not_lt fun hbig => ?_
    exact xmetaDecode_cut_insane hm (.inr hbig) henc bytes.length m.persisted (by rwa [hwhole])
  refine ⟨hf, hn, ?_⟩
  intro ds hds
  refine Nat.le_of_not_lt fun hbig => ?_
  -- the section loop stops at the digest list
  rw [xmetaEncode_eq hm] at henc
  cases henc
  rw [xmetaDecode, reads_xmetaDecodeStock hm hf hn] at hdec
  simp only [xmetaDecodeExtSections] at hdec
  rw [reads_xmetaDecodeExtHeader] at hdec
  simp only [xmetaDecodeSections_oversize hm hds hbig] at hdec
  cases hdec

theorem xmetaPathReadSidecar_encoded_iff (hm : m.WellFormed) {bytes : Bytes}
    (henc : xmetaEncode m = .ok bytes) :
    xmetaPathReadSidecar bytes = .ok m.persisted ↔
      m.Readable ∧ (xmetaEncodePlan m).cap ≤ xmetaMaxSection := by
  have hpos := xmetaEncode_length_pos hm henc
  have hlen := xmetaEncode_length hm henc
  rw [xmetaPathReadSidecar, ← xmetaDecode_encoded_iff hm henc, ← hlen]
  by_cases hbig : xmetaMaxSection < bytes.length
  · rw [if_pos (.inr hbig)]
    constructor
    · intro h
      cases h
    · intro h
      exact absurd h.2 (Nat.not_le_of_gt hbig)
  · have hfits : ¬ (bytes.length = 0 ∨ xmetaMaxSection < bytes.length) := by
      rintro (hzero | h)
      · exact Nat.ne_of_gt hpos hzero
      · exact hbig h
    rw [if_neg hfits]
    exact ⟨fun h => ⟨h, Nat.le_of_not_lt hbig⟩, fun h => h.1⟩

/-! ## Saving -/

theorem xmetaPathSaveToSidecar_eq_ok {c' : XmetaCarriers} {buf : Bytes}
    {calls : XmetaSaveCalls} (h : xmetaPathSaveToSidecar c buf calls = (.ok (), c')) :
    c' = { xattr := if calls.removed then [] else c.xattr, sidecar := some buf } := by
  rw [xmetaPathSaveToSidecar] at h
  rcases hw : calls.write with _ | _ | put
  · rw [hw] at h
    cases h
  · rw [hw] at h
    simp only [xmetaPathWriteSidecar, File.ftruncate_pwrite_zero] at h
    exact (Prod.mk.inj h).2.symm
  · rw [hw] at h
    cases h

/-- What a save that returns OK leaves: the record in the xattr, or the record in the sidecar
under whatever `removexattr` left. -/
theorem xmetaPathSaveOver_eq_ok {c' : XmetaCarriers} {calls : XmetaSaveCalls} (hm : m.WellFormed)
    (h : xmetaPathSaveOver path c m calls = (.ok (), c')) :
    (xmetaSidecarPath path).isSome ∧ ∃ buf, xmetaEncode m = .ok buf ∧
      ((calls.InXattr m ∧ c'.xattr = buf) ∨
        (¬ calls.InXattr m ∧
          c' = { xattr := if calls.removed then [] else c.xattr, sidecar := some buf })) := by
  rw [xmetaPathSaveOver] at h
  rcases henc : xmetaEncode m with e | buf
  · rw [henc] at h
    cases h
  · have hlen := xmetaEncode_length hm henc
    rw [henc] at h
    rcases hsc : xmetaSidecarPath path with _ | sc
    · rw [hsc] at h
      cases h
    · refine ⟨rfl, buf, rfl, ?_⟩
      rw [hsc] at h
      simp only [xmetaPathSaveToXattr] at h
      by_cases hfit : buf.length ≤ xmetaPathXattrMax
      · rw [if_pos hfit] at h
        rcases hset : calls.set with _ | _ | e
        · rw [hset] at h
          obtain rfl := (Prod.mk.inj h).2
          exact .inl ⟨⟨hlen ▸ hfit, hset⟩, rfl⟩
        · rw [hset] at h
          refine .inr ⟨fun hin => ?_, xmetaPathSaveToSidecar_eq_ok h⟩
          cases hset.symm.trans hin.2
        · rw [hset] at h
          cases h
      · rw [if_neg hfit] at h
        exact .inr ⟨fun hin => hfit (hlen ▸ hin.1), xmetaPathSaveToSidecar_eq_ok h⟩

/-- When a load after the save returns the record: it is within the reader's bounds, and unless
it rides in the xattr, the sidecar is too and no xattr hides it (or the one that does holds this
very record). -/
def XmetaSaveCalls.Reaches (calls : XmetaSaveCalls) (c : XmetaCarriers) (m : Xmeta) : Prop :=
  if calls.InXattr m then m.Readable
  else if calls.removed = false ∧ c.ReadsXattr then xmetaDecode c.xattr = .ok m.persisted
  else m.Readable ∧ (xmetaEncodePlan m).cap ≤ xmetaMaxSection

/-- **When a load returns what was saved.** -/
theorem xmetaPathLoadAt_saveOver_iff {path : Bytes} {c c' : XmetaCarriers} {m : Xmeta}
    {calls : XmetaSaveCalls} (hm : m.WellFormed)
    (h : xmetaPathSaveOver path c m calls = (.ok (), c')) :
    xmetaPathLoadAt path c' = .ok m.persisted ↔ calls.Reaches c m := by
  obtain ⟨hpath, buf, henc, hc'⟩ := xmetaPathSaveOver_eq_ok hm h
  have hlen := xmetaEncode_length hm henc
  rw [XmetaSaveCalls.Reaches]
  rcases hc' with ⟨hin, hx⟩ | ⟨hout, rfl⟩
  · have hread : c'.ReadsXattr := by
      rw [XmetaCarriers.ReadsXattr, hx, hlen]
      exact ⟨hlen ▸ xmetaEncode_length_pos hm henc, hin.1⟩
    rw [if_pos hin, xmetaPathLoadAt_xattr hread, hx]
    exact xmetaDecode_encoded_iff hm henc
  · rw [if_neg hout]
    by_cases hleft : calls.removed = false ∧ c.ReadsXattr
    · -- the old xattr is still there
      have hread : XmetaCarriers.ReadsXattr ⟨c.xattr, some buf⟩ := hleft.2
      rw [if_pos hleft, hleft.1]
      exact Eq.congr_left (xmetaPathLoadAt_xattr hread)
    · rw [if_neg hleft, xmetaPathLoadAt_sidecar ?_ hpath rfl]
      · exact xmetaPathReadSidecar_encoded_iff hm henc
      · intro hread
        rcases hr : calls.removed with _ | _
        · rw [hr] at hread
          exact hleft ⟨hr, hread⟩
        · rw [hr] at hread
          exact Nat.lt_irrefl 0 hread.1

theorem xmetaPathSaveOver_unfit {buf : Bytes} (path : Bytes)
    (c : XmetaCarriers) (removed : Bool) (hpath : (xmetaSidecarPath path).isSome)
    (henc : xmetaEncode m = .ok buf) :
    xmetaPathSaveOver path c m ⟨.unfit, some .whole, false, removed⟩ =
      (.ok (), { xattr := if removed then [] else c.xattr, sidecar := some buf }) := by
  obtain ⟨sc, hsc⟩ := Option.isSome_iff_exists.mp hpath
  have hunfit : xmetaPathSaveToXattr buf .unfit = none := by
    rw [xmetaPathSaveToXattr]
    split <;> rfl
  simp only [xmetaPathSaveOver, henc, hsc, hunfit, xmetaPathSaveToSidecar, xmetaPathWriteSidecar,
    File.ftruncate_pwrite_zero]

/-- The record before the last access. -/
def olderXmeta : Xmeta := { sampleXmeta with accessCnt := 2 }

theorem olderXmeta_wellFormed : olderXmeta.WellFormed where
  bufferSize_pos := sampleXmeta_wellFormed.bufferSize_pos
  nblocks_eq := sampleXmeta_wellFormed.nblocks_eq
  bitmap_length := sampleXmeta_wellFormed.bitmap_length
  etag_le := sampleXmeta_wellFormed.etag_le
  cksAlg_le := sampleXmeta_wellFormed.cksAlg_le
  cksHex_le := sampleXmeta_wellFormed.cksHex_le
  digests_lt := sampleXmeta_wellFormed.digests_lt
  blockcrc_length := sampleXmeta_wellFormed.blockcrc_length

theorem olderXmeta_readable : olderXmeta.Readable where
  fileSize_nonneg := sampleXmeta_readable.fileSize_nonneg
  nblocks_le := sampleXmeta_readable.nblocks_le
  digests_le := sampleXmeta_readable.digests_le

/-- The new record is too large for the xattr and goes to the sidecar: loaded then, because the older
record that the xattr had is removed. -/
theorem xmetaPathLoadAt_saveOver_iff_sample :
    ∃ old c', xmetaEncode olderXmeta = .ok old ∧
      xmetaPathSaveOver [47, 97] ⟨old, none⟩ sampleXmeta ⟨.unfit, some .whole, false, true⟩ =
        (.ok (), c') ∧
      xmetaPathLoadAt [47, 97] c' = .ok sampleXmeta.persisted := by
  have hsave := fun old => xmetaPathSaveOver_unfit [47, 97] ⟨old, none⟩ true rfl
    (xmetaEncode_eq sampleXmeta_wellFormed)
  refine ⟨_, _, xmetaEncode_eq olderXmeta_wellFormed, hsave _,
    (xmetaPathLoadAt_saveOver_iff sampleXmeta_wellFormed (hsave _)).mpr ?_⟩
  rw [XmetaSaveCalls.Reaches, if_neg (by simp [XmetaSaveCalls.InXattr]), if_neg (by simp)]
  exact ⟨sampleXmeta_readable, by decide⟩

/-- The xattr can neither be set nor removed: the save returns OK, and the load the record the
xattr had before. -/
theorem save_leaves_older_record :
    ∃ old c', xmetaEncode olderXmeta = .ok old ∧
      xmetaPathSaveOver [47, 97] ⟨old, none⟩ sampleXmeta ⟨.unfit, some .whole, false, false⟩ =
        (.ok (), c') ∧
      xmetaPathLoadAt [47, 97] c' = .ok olderXmeta.persisted ∧
      olderXmeta.persisted ≠ sampleXmeta.persisted := by
  obtain ⟨old, henc⟩ : ∃ old, xmetaEncode olderXmeta = .ok old :=
    ⟨_, xmetaEncode_eq olderXmeta_wellFormed⟩
  have hsave := xmetaPathSaveOver_unfit [47, 97] ⟨old, none⟩ false rfl
    (xmetaEncode_eq sampleXmeta_wellFormed)
  have hcap : (xmetaEncodePlan olderXmeta).cap ≤ xmetaPathXattrMax := by decide
  have hread : ∀ file, XmetaCarriers.ReadsXattr ⟨old, file⟩ := fun _ =>
    ⟨xmetaEncode_length_pos olderXmeta_wellFormed henc,
      by rw [xmetaEncode_length olderXmeta_wellFormed henc]; exact hcap⟩
  refine ⟨old, _, henc, hsave, ?_, by decide⟩
  exact (xmetaPathLoadAt_xattr (hread _)).trans
    (xmetaDecode_encoded olderXmeta_wellFormed olderXmeta_readable henc)

end BrixCache
