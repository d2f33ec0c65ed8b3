import BrixCache.Meta.RoundTrip

/-!
# Where a path's record is kept

`fs/meta/xmeta_path.c`: the encoded record rides in an xattr of the object when
it fits and in a sidecar file next to it otherwise, one copy at a time. A load
reads the xattr first. What the file system answers — whether the xattr can be
set, how far the sidecar write gets — is an input of a save (`PathSave.lean`).
-/

namespace BrixCache

def xmetaPathXattrMax : ℕ := 64 * 1024

/-- The two carriers of one path. -/
structure XmetaCarriers : Type where
  /-- the xattr's value; empty when there is none -/
  xattr : List UInt8
  /-- the sidecar's contents -/
  sidecar : Option (List UInt8)

/-- What `setxattr` answers. -/
inductive SetXattr : Type where
  | stored : SetXattr
  /-- one of the errors of `xmeta_path_xattr_unfit`: fall back -/
  | unfit : SetXattr
  | refused : Errno → SetXattr
  deriving DecidableEq

/-- How far a write of the sidecar came -/
inductive SidecarWrite : Type where
  /-- written, truncated and synced -/
  | whole : SidecarWrite
  /-- stopped after this many bytes, by a failing call or by a crash -/
  | cut : ℕ → SidecarWrite

/-- `xmeta_path_read_sidecar_fd` -/
def xmetaPathReadSidecar (file : List UInt8) : Except XmetaFault Xmeta :=
  if file.length = 0 ∨ xmetaMaxSection < file.length then .error .foreign else xmetaDecode file

/-- `brix_xmeta_path_load`. An xattr that outgrew the scratch buffer reads as
none. -/
def xmetaPathLoad (c : XmetaCarriers) : Except XmetaFault Xmeta :=
  if 0 < c.xattr.length ∧ c.xattr.length ≤ xmetaPathXattrMax then xmetaDecode c.xattr
  else
    match c.sidecar with
    | none => .error .foreign
    | some file => xmetaPathReadSidecar file

/-- `xmeta_path_write_sidecar` over the `old` sidecar. -/
def xmetaPathWriteSidecar (old : Option (List UInt8)) (buf : List UInt8) :
    SidecarWrite → Except Errno Unit × List UInt8
  | .whole => (.ok (), File.ftruncate 0 (File.pwrite 0 (old.getD []) 0 buf) buf.length)
  | .cut put => (.error .eio, File.pwrite 0 (old.getD []) 0 (buf.take put))

theorem xmetaEncode_length_pos {m : Xmeta} (hm : m.WellFormed) {bytes : List UInt8}
    (h : xmetaEncode m = .ok bytes) : 0 < bytes.length := by
  have htake := take_stockLen hm h
  have hlen := xmetaEncodeStockPrefix_length hm
  rw [← htake, List.length_take, Xmeta.stockLen] at hlen
  omega

theorem xmetaPathWriteSidecar_fresh (buf : List UInt8) (put : ℕ) :
    (xmetaPathWriteSidecar none buf (.cut put)).2 = buf.take put := by
  rw [xmetaPathWriteSidecar]
  rcases hcut : buf.take put with _ | ⟨b, bs⟩
  · rfl
  · simp [File.pwrite, File.ftruncate]

end BrixCache
