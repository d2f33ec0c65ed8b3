import BrixCache.Pblock.Tree
import BrixCache.Pblock.Xform

/-!
# The loop that moves a subtree

`rename_collect` and `rename_one`, path after path: just when all the UPDATEs go
through, in the order that the SELECT came to the paths, and what the two tables
are then. An UPDATE fails where the new name is too long or taken by a row that has not
been moved away.
-/

namespace BrixCache

open Segments Function List

variable {io : CatIo} {cat cat' : Catalog} {src dst old p : PblockPath} {pre pl : List PblockPath}

/-- The primary keys of the two tables. -/
structure CatKeys (cat : Catalog) : Prop where
  objects : Keyed.Unique CatRow.path cat.objects
  xattrs : Keyed.Unique XattrRow.key cat.xattrs

theorem lawfulBEq_path : LawfulBEq PblockPath := inferInstance

attribute [local instance] lawfulBEq_path

/-- The rows of the paths in `pl` moved. -/
def movedBy (pl : List PblockPath) (src dst : PblockPath) (cat : Catalog) : Catalog where
  objects := cat.objects.map fun r => if r.path ∈ pl then r.moved src dst else r
  xattrs := cat.xattrs.map fun x => if x.path ∈ pl then x.moved src dst else x

/-- The UPDATEs of one path go through after those of the paths in `pre`. -/
structure PathFits (cat : Catalog) (src dst : PblockPath) (pre : List PblockPath)
    (old : PblockPath) : Prop where
  short : (refront src dst old).length < 2048
  row : ∀ r ∈ cat.objects, r.path = refront src dst old → r.path ∈ pre
  xattr : ∀ x ∈ cat.xattrs, x.path = old → ∀ y ∈ cat.xattrs, y.path = refront src dst old →
    y.name = x.name → y.path ∈ pre

/-- Those of every path do, one after the other. -/
def AllFit (cat : Catalog) (src dst : PblockPath) (pre pl : List PblockPath) : Prop :=
  ∀ mid old post, pl = mid ++ old :: post → PathFits cat src dst (pre ++ mid) old

/-! ## Places -/

theorem refront_inj {q : PblockPath} (hp : AtOrBelow slash src p) (hq : AtOrBelow slash src q)
    (h : refront src dst p = refront src dst q) : p = q := by
  rw [← refront_eq_self hp, ← refront_eq_self hq, ← refront_refront src dst src p, h,
    refront_refront]

theorem refront_ne (hne : src ≠ dst) (hp : AtOrBelow slash src p) : refront src dst p ≠ p := by
  obtain ⟨t, rfl⟩ : ∃ t, p = src ++ t := by
    obtain rfl | hbelow := hp
    · exact ⟨[], (append_nil p).symm⟩
    · obtain ⟨t, rfl⟩ := below_iff.mp hbelow
      exact ⟨_, rfl⟩
  rw [refront_append]
  exact fun h => hne (append_cancel_right h).symm

/-! ## One UPDATE -/

section Update

variable {ρ κ ν : Type} [DecidableEq κ] {key : ρ → κ} {pathOf : ρ → PblockPath} {n : ρ → ν}
  {f : ρ → ρ} {rows rows' : List ρ}

theorem update_moved_eq_some (hkey : ∀ r s, key r = key s ↔ pathOf r = pathOf s ∧ n r = n s)
    (hpath : ∀ r, pathOf (f r) = refront src dst (pathOf r)) (hnm : ∀ r, n (f r) = n r)
    (hne : src ≠ dst) (hunique : Keyed.Unique key rows)
    (hmoved : Keyed.Unique key (rows.map fun r => if pathOf r ∈ pre then f r else r))
    (hat : ∀ q ∈ old :: pre, AtOrBelow slash src q) (hland : ∀ q ∈ pre, refront src dst q ≠ old) :
    Keyed.update key (fun r => pathOf r = old) f
        (rows.map fun r => if pathOf r ∈ pre then f r else r) = some rows' ↔
      (∀ r ∈ rows, pathOf r = old → ∀ s ∈ rows, pathOf s = refront src dst old → n s = n r →
        pathOf s ∈ pre) ∧
      rows' = rows.map fun r => if pathOf r ∈ pre ++ [old] then f r else r := by
  have hmap : ((rows.map fun r => if pathOf r ∈ pre then f r else r).map fun r =>
      if decide (pathOf r = old) = true then f r else r) =
        rows.map fun r => if pathOf r ∈ pre ++ [old] then f r else r := by
    rw [map_map]
    apply map_congr_left
    intro r _
    by_cases hpre : pathOf r ∈ pre
    · have hr : pathOf (f r) ≠ old := by
        rw [hpath]
        exact hland _ hpre
      simp [hpre, hr]
    · simp [hpre]
  have hplace : ∀ r, pathOf r ∈ pre ++ [old] → AtOrBelow slash src (pathOf r) := by
    intro r hr
    apply hat
    rw [mem_cons]
    exact (mem_append.mp hr).symm.imp_left mem_singleton.mp
  have hiff : Keyed.Unique key (rows.map fun r => if pathOf r ∈ pre ++ [old] then f r else r) ↔
      ∀ r ∈ rows, pathOf r = old → ∀ s ∈ rows, pathOf s = refront src dst old → n s = n r →
        pathOf s ∈ pre := by
    rw [Keyed.Unique, map_map]
    constructor
    · intro hnodup r hr hrold s hs hsnew hname
      by_contra hout
      have hsold : pathOf s ≠ old := by
        rw [hsnew]
        exact refront_ne hne (hat old mem_cons_self)
      have hrs : r = s := by
        apply inj_on_of_nodup_map hnodup hr hs
        simp only [comp_apply, mem_append, mem_singleton, hrold, or_true,
          if_true, hout, hsold, or_self, if_false]
        rw [hkey, hpath, hnm, hrold, hsnew]
        exact ⟨rfl, hname.symm⟩
      exact hsold (hrs ▸ hrold)
    · intro hfits
      rw [Keyed.Unique, map_map] at hmoved
      -- a row that moved does not meet one that did not
      have hclash : ∀ r ∈ rows, ∀ s ∈ rows, pathOf r ∈ pre ++ [old] → pathOf s ∉ pre ++ [old] →
          key (f r) ≠ key s := by
        intro r hr s hs hin hout heq
        obtain ⟨hpaths, hnames⟩ := (hkey _ _).mp heq
        rw [hpath] at hpaths
        rw [hnm] at hnames
        rw [mem_append, not_or] at hout
        obtain hpre | hrold := mem_append.mp hin
        · have hrs : r = s := by
            apply inj_on_of_nodup_map hmoved hr hs
            simp only [comp_apply, hpre, hout.1, if_true, if_false, heq]
          exact hout.1 (hrs ▸ hpre)
        · rw [mem_singleton] at hrold
          rw [hrold] at hpaths
          exact hout.1 (hfits r hr hrold s hs hpaths.symm hnames.symm)
      refine List.Nodup.map_on ?_ hunique.of_map
      intro r hr s hs heq
      simp only [comp_apply] at heq
      by_cases hrin : pathOf r ∈ pre ++ [old]
      · rw [if_pos hrin] at heq
        by_cases hsin : pathOf s ∈ pre ++ [old]
        · rw [if_pos hsin, hkey, hpath, hpath, hnm, hnm] at heq
          have hpaths := refront_inj (hplace r hrin) (hplace s hsin) heq.1
          exact inj_on_of_nodup_map hunique hr hs ((hkey r s).mpr ⟨hpaths, heq.2⟩)
        · rw [if_neg hsin] at heq
          exact absurd heq (hclash r hr s hs hrin hsin)
      · rw [if_neg hrin] at heq
        by_cases hsin : pathOf s ∈ pre ++ [old]
        · rw [if_pos hsin] at heq
          exact absurd heq.symm (hclash s hs r hr hsin hrin)
        · rw [if_neg hsin] at heq
          exact inj_on_of_nodup_map hunique hr hs heq
  rw [Keyed.update, hmap, ← hiff]
  by_cases hnew : Keyed.Unique key (rows.map fun r => if pathOf r ∈ pre ++ [old] then f r else r)
  · rw [if_pos hnew, Option.some.injEq]
    exact ⟨fun h => ⟨hnew, h.symm⟩, fun h => h.2.symm⟩
  · rw [if_neg hnew]
    exact ⟨(fun h => by cases h), fun h => absurd h.1 hnew⟩

end Update

/-! ## One path -/

/-- The paths that a move goes through: each once, with a row, and at or below the source. -/
structure Collected (cat : Catalog) (src : PblockPath) (pl : List PblockPath) : Prop where
  nodup : pl.Nodup
  row : ∀ q ∈ pl, ∃ r ∈ cat.objects, r.path = q
  at_or_below : ∀ q ∈ pl, AtOrBelow slash src q

theorem CatKeys.not_lands (hmoved : CatKeys (movedBy pre src dst cat))
    (hpl : Collected cat src (pre ++ old :: pl)) : ∀ q ∈ pre, refront src dst q ≠ old := by
  intro q hq hland
  obtain ⟨r, hr, rfl⟩ := hpl.row q (mem_append_left _ hq)
  obtain ⟨s, hs, rfl⟩ := hpl.row old (mem_append_right _ mem_cons_self)
  have hout : s.path ∉ pre := fun hin =>
    disjoint_of_nodup_append hpl.nodup hin mem_cons_self
  have hunique := hmoved.objects
  rw [movedBy, Keyed.Unique, map_map] at hunique
  have hrs : r = s := by
    apply inj_on_of_nodup_map hunique hr hs
    simp only [comp_apply, hq, hout, if_true, if_false]
    exact hland
  exact hout (hrs ▸ hq)

/-- One row's move succeeds exactly if its name fits and is free. -/
theorem renameOne_eq_ok (hne : src ≠ dst) (hkeys : CatKeys cat)
    (hmoved : CatKeys (movedBy pre src dst cat)) (hpl : Collected cat src (pre ++ old :: pl)) :
    renameOne src dst old (movedBy pre src dst cat) = .ok cat' ↔
      PathFits cat src dst pre old ∧ cat' = movedBy (pre ++ [old]) src dst cat := by
  have hland := hmoved.not_lands hpl
  have hat : ∀ q ∈ old :: pre, AtOrBelow slash src q := by
    intro q hq
    apply hpl.at_or_below
    obtain rfl | hpre := mem_cons.mp hq
    · exact mem_append_right _ mem_cons_self
    · exact mem_append_left _ hpre
  obtain ⟨top, htop, htopPath⟩ := hpl.row old (mem_append_right _ mem_cons_self)
  have hobjects : ∀ rows', Keyed.update CatRow.path (fun r => r.path = old) (CatRow.moved src dst)
      (movedBy pre src dst cat).objects = some rows' ↔ _ ∧ _ := fun rows' =>
    update_moved_eq_some (n := fun _ => ()) (fun r s => (and_iff_left rfl).symm) (fun r => rfl)
      (fun r => rfl) hne hkeys.objects hmoved.objects hat hland
  have hxattrs : ∀ rows', Keyed.update XattrRow.key (fun x => x.path = old) (XattrRow.moved src dst)
      (movedBy pre src dst cat).xattrs = some rows' ↔ _ ∧ _ := fun rows' =>
    update_moved_eq_some (n := XattrRow.name) (fun x y => Prod.mk.injEq _ _ _ _ ▸ Iff.rfl)
      (fun x => rfl) (fun x => rfl) hne hkeys.xattrs hmoved.xattrs hat hland
  rw [renameOne]
  by_cases hlong : 2048 ≤ (refront src dst old).length
  · rw [if_pos hlong]
    exact ⟨(fun h => by cases h), fun h => absurd h.1.short (Nat.not_lt.mpr hlong)⟩
  rw [if_neg hlong]
  cases hupdate : Keyed.update CatRow.path (fun r => r.path = old) (CatRow.moved src dst)
      (movedBy pre src dst cat).objects with
  | none =>
    refine ⟨(fun h => by cases h), fun h => ?_⟩
    have hsome := (hobjects _).mpr ⟨fun _ _ _ s hs hpath _ => h.1.row s hs hpath, rfl⟩
    rw [hupdate] at hsome
    cases hsome
  | some objects =>
    obtain ⟨hrow, rfl⟩ := (hobjects _).mp hupdate
    cases hupdate' : Keyed.update XattrRow.key (fun x => x.path = old) (XattrRow.moved src dst)
        (movedBy pre src dst cat).xattrs with
    | none =>
      refine ⟨(fun h => by cases h), fun h => ?_⟩
      have hsome := (hxattrs _).mpr ⟨h.1.xattr, rfl⟩
      rw [hupdate'] at hsome
      cases hsome
    | some xattrs =>
      obtain ⟨hxattr, rfl⟩ := (hxattrs _).mp hupdate'
      simp only [Except.ok.injEq]
      constructor
      · rintro rfl
        have hshort := Nat.not_le.mp hlong
        exact ⟨⟨hshort, fun s hs hpath => hrow top htop htopPath s hs hpath rfl, hxattr⟩, rfl⟩
      · rintro ⟨-, rfl⟩
        rfl

theorem CatKeys.movedBy_concat (hne : src ≠ dst) (hkeys : CatKeys cat)
    (hmoved : CatKeys (movedBy pre src dst cat)) (hpl : Collected cat src (pre ++ old :: pl))
    (hfits : PathFits cat src dst pre old) : CatKeys (movedBy (pre ++ [old]) src dst cat) := by
  have hok := (renameOne_eq_ok hne hkeys hmoved hpl).mpr ⟨hfits, rfl⟩
  rw [renameOne] at hok
  split at hok
  · cases hok
  split at hok
  · cases hok
  next objects hobjects =>
  split at hok
  · cases hok
  next xattrs hxattrs =>
  rw [← Except.ok.inj hok]
  exact ⟨(Keyed.update_eq_some hobjects).2, (Keyed.update_eq_some hxattrs).2⟩

/-! ## All of them -/

theorem allFit_cons : AllFit cat src dst pre (old :: pl) ↔
    PathFits cat src dst pre old ∧ AllFit cat src dst (pre ++ [old]) pl := by
  constructor
  · intro h
    refine ⟨by simpa using h [] old pl rfl, fun mid o post hpl => ?_⟩
    have hfits := h (old :: mid) o post (by rw [hpl, cons_append])
    rwa [append_cons] at hfits
  · rintro ⟨hold, hrest⟩ mid o post hpl
    cases mid with
    | nil =>
      obtain ⟨rfl, rfl⟩ := cons_eq_cons.mp hpl
      rwa [append_nil]
    | cons m mid =>
      rw [cons_append] at hpl
      obtain ⟨rfl, htail⟩ := cons_eq_cons.mp hpl
      rw [append_cons]
      exact hrest mid o post htail

theorem renameEach_eq_ok (hne : src ≠ dst) (hkeys : CatKeys cat)
    (hmoved : CatKeys (movedBy pre src dst cat)) (hpl : Collected cat src (pre ++ pl)) :
    renameEach src dst pl (movedBy pre src dst cat) = .ok cat' ↔
      AllFit cat src dst pre pl ∧ cat' = movedBy (pre ++ pl) src dst cat := by
  induction pl generalizing pre with
  | nil =>
    rw [renameEach, Except.ok.injEq, append_nil]
    exact ⟨fun h => ⟨fun mid old post hnil => by simp at hnil, h.symm⟩, fun h => h.2.symm⟩
  | cons old pl ih =>
    have hassoc : pre ++ old :: pl = pre ++ [old] ++ pl := append_cons pre old pl
    rw [renameEach, allFit_cons]
    cases hone : renameOne src dst old (movedBy pre src dst cat) with
    | error e =>
      refine ⟨(fun h => by cases h), fun h => ?_⟩
      have hok := (renameOne_eq_ok hne hkeys hmoved hpl).mpr ⟨h.1.1, rfl⟩
      rw [hone] at hok
      cases hok
    | ok next =>
      obtain ⟨hfits, rfl⟩ := (renameOne_eq_ok hne hkeys hmoved hpl).mp hone
      rw [hassoc] at hpl ⊢
      have hrest := ih (hkeys.movedBy_concat hne hmoved (hassoc ▸ hpl) hfits) hpl
      simp only [hrest, hfits, true_and]

theorem movedBy_nil (src dst : PblockPath) (cat : Catalog) : movedBy [] src dst cat = cat := by
  simp [movedBy]

theorem renameCollect_collected (hkeys : CatKeys cat) (io : CatIo) (src : PblockPath) :
    Collected cat src (renameCollect io cat src) := by
  refine ⟨?_, fun q hq => (mem_renameCollect.mp hq).1, fun q hq => (mem_renameCollect.mp hq).2⟩
  rw [renameCollect, (io.order_perm _).nodup_iff]
  exact hkeys.objects.filter _

theorem exchangeMove_eq_ok (hne : src ≠ dst) (hkeys : CatKeys cat) :
    exchangeMove io cat src dst = .ok cat' ↔
      io.row = true ∧ renameCollect io cat src ≠ [] ∧
        AllFit cat src dst [] (renameCollect io cat src) ∧
        cat' = movedBy (renameCollect io cat src) src dst cat := by
  have heach : renameEach src dst (renameCollect io cat src) (movedBy [] src dst cat) = .ok cat' ↔
      AllFit cat src dst [] (renameCollect io cat src) ∧
        cat' = movedBy (renameCollect io cat src) src dst cat :=
    renameEach_eq_ok hne hkeys ((movedBy_nil src dst cat).symm ▸ hkeys)
      (renameCollect_collected hkeys io src)
  rw [movedBy_nil] at heach
  rw [exchangeMove]
  cases hrow : io.row with
  | false => simp
  | true =>
    by_cases hnil : renameCollect io cat src = []
    · simp [hnil]
    · simp only [Bool.not_true, Bool.false_eq_true, if_false, hnil, heach, ne_eq, not_false_eq_true,
        true_and]

theorem CatKeys.movedBy_append (hne : src ≠ dst) (hkeys : CatKeys cat)
    (hmoved : CatKeys (movedBy pre src dst cat)) (hpl : Collected cat src (pre ++ pl))
    (hfit : AllFit cat src dst pre pl) : CatKeys (movedBy (pre ++ pl) src dst cat) := by
  induction pl generalizing pre with
  | nil => rwa [append_nil]
  | cons old pl ih =>
    obtain ⟨hold, hrest⟩ := allFit_cons.mp hfit
    have hstep := hkeys.movedBy_concat hne hmoved hpl hold
    have hassoc : pre ++ old :: pl = pre ++ [old] ++ pl := append_cons pre old pl
    rw [hassoc] at hpl ⊢
    exact ih hstep hpl hrest

end BrixCache

/-! ## A rename and the bytes behind it -/

namespace BrixCache

open Segments Function

/-- The catalog, the reference counts and the blobs of an export. -/
structure RenameStore : Type where
  cat : Catalog
  zstd : Zstd
  /-- the transform that the export is configured with -/
  xform : PblockXform
  /-- the `refs` gate -/
  refs : Bool
  /-- the column `refcount` of the `blobs` table -/
  counts : Bytes → Option ℕ
  files : Bytes → Blocks
  /-- the records of the arena -/
  packed : Bytes → Option Bytes

/-- Which statements of a rename succeed -/
structure RenameIo : Type where
  /-- the lookups, the leases, and the statements that clear the destination -/
  prep : CatIo
  /-- the SELECT of the reference count -/
  counts : Bool
  /-- the UPDATE that counts down -/
  lowers : Bool
  /-- the DELETE of a tracking row -/
  drops : Bool
  /-- the statements on a packed record -/
  packs : Bool
  /-- the lookup of the new parent, and the transaction of the move -/
  move : CatIo

/-! ### What is seen -/

/-- `pblock_xform_kind_from_name` gives the kind of this transform. -/
def PblockXform.hasName (xf : PblockXform) (name : Bytes) : Bool :=
  match xf with
  | .crypt _ => name = ascii "crypt"
  | .zstd => name = ascii "zstd"
  | .plain => name ≠ ascii "crypt" ∧ name ≠ ascii "zstd"

/-- What a reader sees at a path -/
structure PathView : Type where
  parent : PblockPath
  info : CatMeta
  xattr : Bytes → Option Bytes
  /-- none for a directory, and where the open fails -/
  bytes : Option Bytes

namespace Catalog

variable (cat : Catalog) (read : CatMeta → Option Bytes)

def xattrAt (path : PblockPath) (name : Bytes) : Option Bytes :=
  (Keyed.find XattrRow.key (path, name) cat.xattrs).map (·.value)

def viewOf (r : CatRow) : PathView where
  parent := r.parent
  info := r.info
  xattr := cat.xattrAt r.path
  bytes := if r.info.isDir then none else read r.info

def viewAt (path : PblockPath) : Option PathView :=
  (Keyed.find CatRow.path path cat.objects).map (cat.viewOf read)

end Catalog

namespace RenameStore

variable (st : RenameStore)

/-- `pblock_read_blocks`, of a whole object -/
def readBlocks (m : CatMeta) : Option Bytes :=
  let bs := m.blockSize.toNat.toPNat'
  if st.xform.active then
    let got := pblockXformRead st.zstd st.xform bs (st.files m.blobId) m.size.toNat 0
    if m.size.toNat ≠ 0 ∧ got = [] then none else some got
  else some (pblockReadBlocks (st.files m.blobId) bs m.size.toNat 0)

/-- The bytes of an object. The open compares the transform that it was written through, and
asks for its packed record, or for block 0. -/
def readObject (m : CatMeta) : Option Bytes :=
  if !st.xform.hasName m.xform then none
  else
    match st.packed m.blobId with
    | some bytes => some (File.ftruncate 0 bytes m.size.toNat)
    | none => if (st.files m.blobId 0).isNone then none else st.readBlocks m

def viewAt (path : PblockPath) : Option PathView := st.cat.viewAt st.readObject path

/-! ### Releasing a blob -/

def refsCount (b : Bytes) : ℕ :=
  match st.counts b with
  | none => 1
  | some n => max n 1

/-- `refs_remove`: `pblock_remove_blocks` and `pblock_pack_del` -/
def refsRemove (packs : Bool) (m : CatMeta) : RenameStore :=
  { st with
    files := update st.files m.blobId (dropBlocks (st.files m.blobId) 0
      (pblockLastBlock m.size.toNat m.blockSize.toNat.toPNat' + 1))
    packed := if packs then update st.packed m.blobId none else st.packed }

/-- `pblock_refs_release` -/
def release (io : RenameIo) (m : CatMeta) : RenameStore :=
  if !st.refs then st.refsRemove io.packs m
  else if !io.counts then st
  else if st.refsCount m.blobId ≤ 1 then
    { st.refsRemove io.packs m with
      counts := if io.drops then update st.counts m.blobId none else st.counts }
  else if io.lowers then
    { st with counts := update st.counts m.blobId ((st.counts m.blobId).map (· - 1)) }
  else st

/-! ### The call -/

/-- `pblock_catalog_remove` -/
def removeRow (io : RenameIo) (path : PblockPath) : RenameStore × Option CatErr :=
  let res := pblockCatalogRemoveRow io.prep st.cat path
  ({ st with cat := res.1 }, res.2)

/-- `sd_pblock_drop_dst` -/
def dropDst (io : RenameIo) (dst : PblockPath) (m : CatMeta) : RenameStore × Option CatErr :=
  if m.isDir then
    if !io.prep.counts then (st, some .eio)
    else if 0 < st.cat.childCount dst then (st, some .enotempty)
    else st.removeRow io dst
  else (st.release io m).removeRow io dst

def renamePrepare (io : RenameIo) (src dst : PblockPath) (noreplace : Bool) :
    RenameStore × Option CatErr :=
  if !io.prep.looksUp then (st, some .eio)
  else
    match st.cat.lookup src with
    | none => (st, some .enoent)
    | some _ =>
      if !io.prep.gates then (st, some .refused)
      else
        match st.cat.lookup dst with
        | none => (st, none)
        | some m => if noreplace then (st, some .eexist) else st.dropDst io dst m

/-- `pblock_catalog_rename`, whose lookup of the parent may fail as well. -/
def catalogRename (io : RenameIo) (src dst : PblockPath) : RenameStore × Option CatErr :=
  if !io.move.looksUp ∧ parentOf 1024 dst ≠ [] ∧ parentOf 1024 dst ≠ [slash] then (st, some .enoent)
  else
    let res := pblockCatalogRename io.move st.cat src dst
    ({ st with cat := res.1 }, res.2)

/-- `sd_pblock_rename` -/
def rename (io : RenameIo) (src dst : PblockPath) (noreplace : Bool) :
    RenameStore × Option CatErr :=
  match st.renamePrepare io src dst noreplace with
  | (st', some e) => (st', some e)
  | (st', none) => st'.catalogRename io src dst

end RenameStore

/-! ### What a rename should do -/

/-- What stands before the names below `a`. -/
def treeFront (a : PblockPath) : PblockPath := if a = [slash] then [] else a

/-- `p` is in the tree below `a`. -/
def InTree (a p : PblockPath) : Prop :=
  Below slash (treeFront a) p ∧ (a = [slash] → p ≠ [slash])

instance (a p : PblockPath) : Decidable (InTree a p) := inferInstanceAs (Decidable (_ ∧ _))

/-- What is seen at a path after `src` has become `dst`. -/
def renamedView (view : PblockPath → Option PathView) (src dst p : PblockPath) : Option PathView :=
  if p = dst then (view src).map fun v => { v with parent := parentOf 1024 p }
  else if InTree dst p then
    let q := refront (treeFront dst) (treeFront src) p
    if InTree src q then (view q).map fun v => { v with parent := parentOf 1024 p } else none
  else if p = src ∨ InTree src p then none
  else view p

/-- A rename that fails changes nothing that is seen, and one that does not moves the tree. -/
def RenameAtomic (st : RenameStore) (io : RenameIo) (src dst : PblockPath) (noreplace : Bool) :
    Prop :=
  ∀ p, (st.rename io src dst noreplace).1.viewAt p =
    if (st.rename io src dst noreplace).2.isSome then st.viewAt p
    else renamedView st.viewAt src dst p

end BrixCache
