import BrixCache.Pblock.RenameViews
import BrixCache.Pblock.TreeRuns
import BrixCache.Vfs.SiteN2n

/-!
# When a rename is atomic

What stands at the destination is gone before the transaction of the move begins, so a
rename that replaces is atomic just when nothing fails from there on; one that
does not replace has the transaction to fall back on. What goes through
still has to be what a rename should do.
-/

namespace BrixCache

open Segments List

/-- The catalog without what is at `dst`. -/
def Catalog.without (cat : Catalog) (dst : PblockPath) : Catalog where
  objects := Keyed.erase CatRow.path dst cat.objects
  xattrs := cat.xattrs.filter fun x => x.path ≠ dst

theorem CatKeys.without {cat : Catalog} (hkeys : CatKeys cat) (dst : PblockPath) :
    CatKeys (cat.without dst) := by
  refine ⟨hkeys.objects.erase dst, ?_⟩
  exact hkeys.xattrs.sublist (filter_sublist.map XattrRow.key)

theorem Catalog.viewAt_without {cat : Catalog} {read : CatMeta → Option Bytes}
    {dst p : PblockPath} (hne : p ≠ dst) : (cat.without dst).viewAt read p = cat.viewAt read p := by
  rw [viewAt, viewAt, without, Keyed.find_erase_of_ne hne]
  cases hfind : Keyed.find CatRow.path p cat.objects with
  | none => rfl
  | some r =>
    have hpath : r.path = p := by simpa using find?_some hfind
    have hxattr : ∀ name, (cat.without dst).xattrAt r.path name = cat.xattrAt r.path name := by
      intro name
      rw [xattrAt, xattrAt, without, Keyed.find, Keyed.find, find?_filter]
      congr 2
      funext x
      by_cases hx : x.path = p
      · simp [hx, hne]
      · simp [XattrRow.key, hpath, hx]
    rw [Option.map_some, Option.map_some, viewOf, viewOf]
    have hsame : (cat.without dst).xattrAt r.path = cat.xattrAt r.path := funext hxattr
    rw [without] at hsame
    rw [hsame]

theorem catTransaction_ok {io : CatIo} (h : io.begins = true) (cat cat' : Catalog) :
    catTransaction io cat (.ok cat') =
      if io.commits then (cat', none) else (if io.stays then cat' else cat, some .eio) := by
  simp [catTransaction, h]

theorem catTransaction_error (io : CatIo) (cat : Catalog) (e : CatErr) :
    ∃ e', catTransaction io cat (.error e) = (cat, some e') := by
  unfold catTransaction
  split
  · exact ⟨_, rfl⟩
  · exact ⟨e, rfl⟩

/-- The statements of the move go through, up to its `COMMIT`. -/
structure Moves (io : CatIo) (cat : Catalog) (src dst : PblockPath) : Prop where
  parent : io.looksUp = true ∨ parentOf 1024 dst = [] ∨ parentOf 1024 dst = [slash]
  gate : cat.parentGate dst = none
  begins : io.begins = true
  row : io.row = true
  fit : AllFit cat src dst [] (renameCollect io cat src)

theorem Moves.keys {io : CatIo} {cat : Catalog} {src dst : PblockPath} (h : Moves io cat src dst)
    (hne : src ≠ dst) (hkeys : CatKeys cat) : CatKeys (cat.moveAll io src dst) :=
  CatKeys.movedBy_append hne hkeys ((movedBy_nil src dst cat).symm ▸ hkeys)
    (renameCollect_collected hkeys io src) h.fit

theorem CatKeys.viewAt_congr {cat : Catalog} {read read' : CatMeta → Option Bytes}
    (hkeys : CatKeys cat) : (∀ p, cat.viewAt read' p = cat.viewAt read p) ↔
      ∀ r ∈ cat.objects, r.info.isDir = false → read' r.info = read r.info := by
  constructor
  · intro h r hr hfile
    have hview := h r.path
    rw [hkeys.viewAt_eq_some hr, hkeys.viewAt_eq_some hr, Catalog.viewOf, Catalog.viewOf] at hview
    simpa [hfile] using hview
  · intro h p
    rw [Catalog.viewAt, Catalog.viewAt]
    cases hfind : Keyed.find CatRow.path p cat.objects with
    | none => rfl
    | some r =>
      have hr := ((Keyed.find_eq_some hkeys.objects).mp hfind).1
      rw [Option.map_some, Option.map_some, Catalog.viewOf, Catalog.viewOf]
      cases hdir : r.info.isDir with
      | true => rfl
      | false => simp [h r hr hdir]

namespace RenameStore

variable {st : RenameStore} {io : RenameIo} {m m' : CatMeta} {src dst p : PblockPath}
  {noreplace : Bool}

/-! ## The release of a blob -/

/-- The release takes the bytes of the blob away. -/
def Wipes (st : RenameStore) (io : RenameIo) (m : CatMeta) : Prop :=
  (st.refs = false ∨ (io.counts = true ∧ st.refsCount m.blobId ≤ 1)) ∧
    (io.packs = true ∨ st.packed m.blobId = none)

instance : Decidable (st.Wipes io m) := inferInstanceAs (Decidable (_ ∧ _))

theorem release_cat : (st.release io m).cat = st.cat := by
  rw [release]
  split_ifs <;> rfl

theorem readObject_refsRemove (packs : Bool) : (st.refsRemove packs m).readObject m' =
    if (packs = true ∨ st.packed m.blobId = none) ∧ m'.blobId = m.blobId then none
    else st.readObject m' := by
  have hblock : dropBlocks (st.files m.blobId) 0
      (pblockLastBlock m.size.toNat m.blockSize.toNat.toPNat' + 1) 0 = none := by
    rw [dropBlocks_apply, if_pos (by omega)]
  by_cases hblob : m'.blobId = m.blobId
  · cases hpacked : st.packed m.blobId with
    | none | some bytes =>
      cases packs <;> simp [readObject, refsRemove, hblob, hblock, hpacked]
  · cases packs <;> simp [readObject, readBlocks, refsRemove, hblob]

theorem readObject_release : (st.release io m).readObject m' =
    if st.Wipes io m ∧ m'.blobId = m.blobId then none else st.readObject m' := by
  rw [release]
  cases hrefs : st.refs with
  | false => simp [Wipes, hrefs, readObject_refsRemove]
  | true =>
    cases hcounts : io.counts with
    | false => simp [Wipes, hrefs, hcounts]
    | true =>
      by_cases hone : st.refsCount m.blobId ≤ 1
      · have hread : ∀ counts : Bytes → Option ℕ,
            ({ st.refsRemove io.packs m with counts } : RenameStore).readObject m' =
              (st.refsRemove io.packs m).readObject m' := fun counts => rfl
        simp [Wipes, hrefs, hcounts, hone, hread, readObject_refsRemove]
      · have hwipes : ¬(st.Wipes io m ∧ m'.blobId = m.blobId) := by simp [Wipes, hrefs, hone]
        rw [if_neg hwipes]
        cases io.lowers with
        | false => simp [hone]
        | true =>
          -- the counts are read by no object
          simp only [Bool.not_true, Bool.false_eq_true, if_false, if_neg hone, if_true]
          rfl

/-- Before the row of `m` is deleted. -/
def released (st : RenameStore) (io : RenameIo) (m : CatMeta) : RenameStore :=
  if m.isDir then st else st.release io m

theorem released_cat : (st.released io m).cat = st.cat := by
  rw [released]
  split
  · rfl
  · exact release_cat

/-- No object of these rows is read from what the release of `m` takes away. -/
def Spares (st : RenameStore) (io : RenameIo) (m : CatMeta) (rows : List CatRow) : Prop :=
  m.isDir = false → st.Wipes io m → ∀ r ∈ rows, r.info.isDir = false →
    r.info.blobId = m.blobId → st.readObject r.info = none

theorem spares_iff {rows : List CatRow} : st.Spares io m rows ↔ ∀ r ∈ rows, r.info.isDir = false →
    (st.released io m).readObject r.info = st.readObject r.info := by
  rw [Spares, released]
  cases m.isDir with
  | true => simp
  | false =>
    simp only [Bool.false_eq_true, if_false, readObject_release]
    constructor
    · intro h r hr hfile
      split
      · next hwipes => exact (h trivial hwipes.1 r hr hfile hwipes.2).symm
      · rfl
    · intro h _ hwipes r hr hfile hblob
      have hread := h r hr hfile
      rw [if_pos ⟨hwipes, hblob⟩] at hread
      exact hread.symm

/-! ## The call -/

theorem exchangeMove_of_moves (hne : src ≠ dst) (hkeys : CatKeys st.cat)
    (hsrc : ∃ r ∈ st.cat.objects, r.path = src) (h : Moves io.move st.cat src dst) :
    exchangeMove io.move st.cat src dst = .ok (st.cat.moveAll io.move src dst) := by
  obtain ⟨top, htop, rfl⟩ := hsrc
  have hin : top.path ∈ renameCollect io.move st.cat top.path :=
    (mem_renameCollect_row htop).mpr (.inl rfl)
  exact (exchangeMove_eq_ok hne hkeys).mpr ⟨h.row, ne_nil_of_mem hin, h.fit, rfl⟩

theorem catalogRename_of_moves (st : RenameStore) (hne : src ≠ dst) (hkeys : CatKeys st.cat)
    (hsrc : ∃ r ∈ st.cat.objects, r.path = src) (h : Moves io.move st.cat src dst) :
    st.catalogRename io src dst =
      if io.move.commits then ({ st with cat := st.cat.moveAll io.move src dst }, none)
      else
        ({ st with cat := if io.move.stays then st.cat.moveAll io.move src dst else st.cat },
          some .eio) := by
  have hparent : ¬((!io.move.looksUp) = true ∧ parentOf 1024 dst ≠ [] ∧
      parentOf 1024 dst ≠ [slash]) := by
    rintro ⟨hlook, hnil, hroot⟩
    obtain hlooks | heq | heq := h.parent
    · simp [hlooks] at hlook
    · exact hnil heq
    · exact hroot heq
  rw [catalogRename, if_neg hparent, pblockCatalogRename, h.gate]
  dsimp only
  rw [exchangeMove_of_moves hne hkeys hsrc h, catTransaction_ok h.begins]
  cases io.move.commits <;> rfl

theorem catalogRename_of_not (st : RenameStore) (hne : src ≠ dst) (hkeys : CatKeys st.cat)
    (h : ¬Moves io.move st.cat src dst) : ∃ e, st.catalogRename io src dst = (st, some e) := by
  rw [catalogRename]
  split
  · exact ⟨_, rfl⟩
  next hparent =>
  rw [pblockCatalogRename]
  cases hgate : st.cat.parentGate dst with
  | some e => exact ⟨e, rfl⟩
  | none =>
    dsimp only
    cases hmove : exchangeMove io.move st.cat src dst with
    | error e =>
      obtain ⟨e', he⟩ := catTransaction_error io.move st.cat e
      rw [he]
      exact ⟨e', rfl⟩
    | ok cat' =>
      cases hbegins : io.move.begins with
      | false =>
        unfold catTransaction
        rw [hbegins]
        exact ⟨_, rfl⟩
      | true =>
        obtain ⟨hrow, -, hfit, -⟩ := (exchangeMove_eq_ok hne hkeys).mp hmove
        refine absurd ⟨?_, hgate, hbegins, hrow, hfit⟩ h
        by_contra hnone
        simp only [not_or] at hnone
        exact hparent ⟨by simp [hnone.1], hnone.2⟩

theorem catalogRename_rows (io : RenameIo) (src dst : PblockPath) (hkeys : CatKeys st.cat) :
    (st.catalogRename io src dst).1.cat.objects = st.cat.objects ∨
      (st.catalogRename io src dst).1.cat.objects =
        st.cat.objects.map (CatRow.landed src dst) := by
  rw [catalogRename]
  split
  · exact .inl rfl
  rw [pblockCatalogRename]
  split
  · exact .inl rfl
  cases hmove : exchangeMove io.move st.cat src dst with
  | error e =>
    obtain ⟨e', he⟩ := catTransaction_error io.move st.cat e
    rw [he]
    exact .inl rfl
  | ok cat' =>
    have hrows : cat'.objects = st.cat.objects.map (CatRow.landed src dst) :=
      (exchangeMove_moved hkeys.objects hmove).objects
    unfold catTransaction
    split_ifs
    · exact .inl rfl
    · exact .inr hrows
    · exact .inr hrows
    · exact .inl rfl

theorem removeRow_eq : st.removeRow io dst =
    if !io.prep.row then (st, some .eio)
    else if !io.prep.xattrs then
      ({ st with cat := { st.cat with objects := Keyed.erase CatRow.path dst st.cat.objects } },
        some .eio)
    else ({ st with cat := st.cat.without dst }, none) := by
  rw [removeRow, pblockCatalogRemoveRow]
  split_ifs <;> rfl

/-- What the destination is asked before it is dropped: a directory is empty. -/
def Droppable (st : RenameStore) (io : RenameIo) (dst : PblockPath) (m : CatMeta) : Prop :=
  m.isDir = true → io.prep.counts = true ∧ st.cat.childCount dst = 0

theorem dropDst_of_droppable (h : st.Droppable io dst m) :
    st.dropDst io dst m = (st.released io m).removeRow io dst := by
  rw [dropDst, released]
  cases hdir : m.isDir with
  | false => rfl
  | true =>
    obtain ⟨hcounts, hcount⟩ := h hdir
    simp [hcounts, hcount]

theorem dropDst_of_not (io : RenameIo) (h : ¬st.Droppable io dst m) :
    ∃ e, st.dropDst io dst m = (st, some e) := by
  rw [Droppable, Classical.not_imp] at h
  obtain ⟨hdir, hnot⟩ := h
  rw [dropDst, if_pos hdir]
  cases hcounts : io.prep.counts with
  | false => exact ⟨_, rfl⟩
  | true =>
    have hpos : 0 < st.cat.childCount dst := by
      rw [Nat.pos_iff_ne_zero]
      exact fun hzero => hnot ⟨hcounts, hzero⟩
    rw [if_pos hpos]
    exact ⟨_, rfl⟩

end RenameStore

/-! ## The condition -/

/-- What the translation of names gives: a backend's names are not empty, and where `/` is one
of them the others begin with it. -/
structure RenameNames (src dst : PblockPath) : Prop where
  nonempty : src ≠ []
  absolute : src = [slash] → dst.head? = some slash

theorem head?_canonText (lfn : Bytes) : (canonText lfn).head? = some slash := by
  rw [canonText, n2nFinish]
  cases keptSegs lfn with
  | nil | cons seg segs => rfl

theorem RenameNames.of_lfn2pfn {cfg : N2nCfg} {a b src dst : PblockPath} {cap cap' : ℕ}
    (hsrc : n2nLfn2pfn cfg a cap = .ok src) (hdst : n2nLfn2pfn cfg b cap' = .ok dst) :
    RenameNames src dst := by
  obtain ⟨canon, hcanon, rfl, -⟩ := n2nLfn2pfn_eq_ok hsrc
  obtain ⟨canon', hcanon', rfl, -⟩ := n2nLfn2pfn_eq_ok hdst
  obtain ⟨-, -, rfl, -⟩ := n2nCanonicalize_eq_ok.mp hcanon
  obtain ⟨-, -, rfl, -⟩ := n2nCanonicalize_eq_ok.mp hcanon'
  obtain ⟨c, hc⟩ := head?_eq_some_iff.mp (head?_canonText a)
  rw [N2nCfg.text, N2nCfg.text]
  cases cfg.scheme with
  | identity => exact ⟨by simp [hc], fun _ => head?_canonText b⟩
  | ral =>
    refine ⟨by simp, fun hroot => ?_⟩
    have hlen := congrArg length hroot
    simp only [hc, length_append, length_cons, length_nil] at hlen
    omega
  | cephfsPath =>
    refine ⟨by simp [hc], fun hroot => ?_⟩
    -- a prefix leaves no room for it in `/`
    have hpfx : cfg.pfx = [] := by
      have hlen := congrArg length hroot
      rw [hc, length_append, length_cons, length_singleton] at hlen
      exact eq_nil_of_length_eq_zero (by omega)
    rw [hpfx]
    exact head?_canonText b

namespace RenameStore

variable {st : RenameStore} {io : RenameIo} {m : CatMeta} {src dst : PblockPath} {noreplace : Bool}

/-- The destination is replaced, and from its deletion on all goes through. -/
structure Replaces (st : RenameStore) (io : RenameIo) (src dst : PblockPath) (m : CatMeta) :
    Prop where
  ne : src ≠ dst
  outside : ¬InTree src dst
  xattrs : io.prep.xattrs = true
  moves : Moves io.move (st.cat.without dst) src dst
  commits : io.move.commits = true
  clears : Clears (st.cat.without dst) src dst
  spares : st.Spares io m (st.cat.without dst).objects

/-- **What a rename needs.** Where nothing stands at the destination, a `COMMIT` that fails
takes the move back, and nothing is in the way of one that does not. Where something does and may
be dropped, its deletion fails before it is released, or all goes through. -/
def RenameSafe (st : RenameStore) (io : RenameIo) (src dst : PblockPath) (noreplace : Bool) :
    Prop :=
  io.prep.looksUp = true → io.prep.gates = true → (st.cat.lookup src).isSome →
    match st.cat.lookup dst with
    | none =>
      Moves io.move st.cat src dst →
        if io.move.commits then Clears st.cat src dst else io.move.stays = false
    | some m =>
      noreplace = false → st.Droppable io dst m →
        if io.prep.row then st.Replaces io src dst m else st.Spares io m st.cat.objects

/-! ## Where nothing is replaced -/

theorem renameAtomic_of_unchanged (h : ∃ e, st.rename io src dst noreplace = (st, some e)) :
    RenameAtomic st io src dst noreplace := by
  obtain ⟨e, he⟩ := h
  intro p
  rw [he]
  rfl

theorem length_le_of_renameAtomic (h : RenameAtomic st io src dst noreplace)
    (hkeys : CatKeys st.cat) (herr : (st.rename io src dst noreplace).2.isSome) :
    st.cat.objects.length ≤ (st.rename io src dst noreplace).1.cat.objects.length := by
  have hpaths : st.cat.objects.map (·.path) ⊆
      (st.rename io src dst noreplace).1.cat.objects.map (·.path) := by
    intro p hp
    obtain ⟨r, hr, rfl⟩ := mem_map.mp hp
    have hview := h r.path
    rw [if_pos herr, viewAt, viewAt, hkeys.viewAt_eq_some hr] at hview
    by_contra hout
    have hnone : (st.rename io src dst noreplace).1.cat.viewAt
        (st.rename io src dst noreplace).1.readObject r.path = none := by
      rw [Catalog.viewAt_eq_none]
      intro s hs hsp
      exact hout (mem_map.mpr ⟨s, hs, hsp⟩)
    rw [hnone] at hview
    cases hview
  have hle := List.Nodup.length_le_of_subset hkeys.objects hpaths
  simpa using hle

theorem landing_fresh (h : Moves io.move st.cat src dst) (hkeys : CatKeys st.cat)
    (hsrc : ∃ r ∈ st.cat.objects, r.path = src) (hgone : ∀ r ∈ st.cat.objects, r.path ≠ dst)
    (hne : src ≠ dst) : Landing io.move st.cat src dst st.readObject st.viewAt :=
  ⟨hkeys, h.keys hne hkeys, hsrc, hgone, fun _ _ => rfl⟩

/-- To a path that is not there -/
theorem fresh_iff (hkeys : CatKeys st.cat) (hnames : RenameNames src dst)
    (hsrc : ∃ r ∈ st.cat.objects, r.path = src) (hgone : ∀ r ∈ st.cat.objects, r.path ≠ dst)
    (hcall : st.rename io src dst noreplace = st.catalogRename io src dst) :
    RenameAtomic st io src dst noreplace ↔ (Moves io.move st.cat src dst →
      if io.move.commits then Clears st.cat src dst else io.move.stays = false) := by
  have hne : src ≠ dst := by
    rintro rfl
    obtain ⟨r, hr, hrp⟩ := hsrc
    exact hgone r hr hrp
  have hdst : st.viewAt dst = none := Catalog.viewAt_eq_none.mpr hgone
  by_cases hmoves : Moves io.move st.cat src dst
  · have hland := landing_fresh hmoves hkeys hsrc hgone hne
    have hmove := catalogRename_of_moves st hne hkeys hsrc hmoves
    rw [← hcall] at hmove
    cases hcommits : io.move.commits with
    | true =>
      rw [hcommits, if_pos rfl] at hmove
      simp only [hmoves, if_true, true_imp_iff]
      constructor
      · intro h
        have hview : ∀ p, (st.cat.moveAll io.move src dst).viewAt st.readObject p =
            renamedView st.viewAt src dst p := by
          intro p
          have hp := h p
          rwa [hmove] at hp
        exact (hland.clears_of_view hview hne hnames.nonempty hnames.absolute).1
      · intro hclears p
        rw [hmove]
        exact hland.view_eq hclears (fun _ => hdst) (fun _ _ _ => rfl) p
    | false =>
      rw [hcommits] at hmove
      cases hstays : io.move.stays with
      | false =>
        rw [hstays] at hmove
        simp only [Bool.false_eq_true, if_false, implies_true, iff_true]
        exact renameAtomic_of_unchanged ⟨_, hmove⟩
      | true =>
        rw [hstays] at hmove
        simp only [hmoves, Bool.false_eq_true, if_false, true_imp_iff, Bool.true_eq_false,
          iff_false]
        intro h
        -- the row of the source is seen at the destination
        have hview := h dst
        rw [hmove] at hview
        obtain ⟨r, hr, rfl⟩ := hsrc
        have hnone : (st.cat.moveAll io.move r.path dst).viewAt st.readObject dst = none := by
          rw [← hdst]
          exact hview
        refine Catalog.moveAll_viewAt_eq_none.mp hnone r hr ?_
        have hat : AtOrBelow slash r.path r.path := .inl rfl
        rw [newPath, if_pos hat, refront_self]
  · obtain ⟨e, he⟩ := catalogRename_of_not st hne hkeys hmoves
    simp only [hmoves, false_imp_iff, iff_true]
    exact renameAtomic_of_unchanged ⟨e, hcall.trans he⟩

/-! ## Where something is replaced -/

theorem exists_row_of_lookup (hlook : st.cat.lookup dst = some m) :
    ∃ r ∈ st.cat.objects, r.path = dst := by
  by_contra hnone
  rw [Catalog.lookup_eq_none.mpr fun r hr hrp => hnone ⟨r, hr, hrp⟩] at hlook
  cases hlook

theorem length_erase_lt (hlook : st.cat.lookup dst = some m) :
    (Keyed.erase CatRow.path dst st.cat.objects).length < st.cat.objects.length := by
  obtain ⟨r, hr, hrp⟩ := exists_row_of_lookup hlook
  rw [Keyed.erase, length_filter_lt_length_iff_exists]
  exact ⟨r, hr, by simp [hrp]⟩

/-- The destination dropped, with its attributes and what its release takes. -/
def dropped (st : RenameStore) (io : RenameIo) (dst : PblockPath) (m : CatMeta) : RenameStore :=
  { st.released io m with cat := st.cat.without dst }

theorem landing_dropped (hmoves : Moves io.move (st.cat.without dst) src dst)
    (hkeys : CatKeys st.cat) (hsrc : ∃ r ∈ st.cat.objects, r.path = src) (hne : src ≠ dst) :
    Landing io.move (st.cat.without dst) src dst st.readObject st.viewAt := by
  refine ⟨hkeys.without dst, hmoves.keys hne (hkeys.without dst), ?_, ?_, ?_⟩
  · obtain ⟨r, hr, hrp⟩ := hsrc
    exact ⟨r, Keyed.mem_erase.mpr ⟨hr, by rwa [hrp]⟩, hrp⟩
  · intro r hr
    exact (Keyed.mem_erase.mp hr).2
  · intro p hp
    exact (Catalog.viewAt_without hp).symm

theorem not_renameAtomic_of_dropped (hkeys : CatKeys st.cat) (hlook : st.cat.lookup dst = some m)
    (hlen : (st.rename io src dst noreplace).1.cat.objects.length ≤
      (Keyed.erase CatRow.path dst st.cat.objects).length)
    (herr : (st.rename io src dst noreplace).2.isSome) :
    ¬RenameAtomic st io src dst noreplace := by
  intro h
  have hless := hlen.trans_lt (length_erase_lt hlook)
  exact absurd (length_le_of_renameAtomic h hkeys herr) (Nat.not_le.mpr hless)

theorem not_renameAtomic_self (hkeys : CatKeys st.cat) (hlook : st.cat.lookup src = some m)
    (hcall : st.rename io src src noreplace = (st.dropped io src m).catalogRename io src src) :
    ¬RenameAtomic st io src src noreplace := by
  intro h
  have hgone : ∀ r ∈ (st.rename io src src noreplace).1.cat.objects, r.path ≠ src := by
    have hkeys' : CatKeys (st.dropped io src m).cat := hkeys.without src
    have herase : ∀ r ∈ (st.dropped io src m).cat.objects, r.path ≠ src :=
      fun r hr => (Keyed.mem_erase.mp hr).2
    rw [hcall]
    obtain hrows | hrows := catalogRename_rows io src src hkeys'
    · rwa [hrows]
    · rw [hrows]
      intro r hr
      obtain ⟨s, hs, rfl⟩ := mem_map.mp hr
      rw [CatRow.landed_path, newPath]
      split
      · next hat =>
        rw [refront_eq_self hat]
        exact herase s hs
      · exact herase s hs
  have hview := h src
  obtain ⟨r, hr, hrp⟩ := exists_row_of_lookup hlook
  have hsome : st.viewAt src = some (st.cat.viewOf st.readObject r) := by
    rw [← hrp]
    exact hkeys.viewAt_eq_some hr
  have hnone : (st.rename io src src noreplace).1.viewAt src = none :=
    Catalog.viewAt_eq_none.mpr hgone
  rw [hnone, renamedView, if_pos rfl, hsome] at hview
  split at hview <;> cases hview

/-- Over a destination that was dropped -/
theorem dropped_iff (hkeys : CatKeys st.cat) (hnames : RenameNames src dst)
    (hsrc : ∃ r ∈ st.cat.objects, r.path = src) (hlook : st.cat.lookup dst = some m)
    (hxattrs : io.prep.xattrs = true)
    (hcall : st.rename io src dst noreplace = (st.dropped io dst m).catalogRename io src dst) :
    RenameAtomic st io src dst noreplace ↔ st.Replaces io src dst m := by
  by_cases hne : src = dst
  · subst hne
    exact iff_of_false (not_renameAtomic_self hkeys hlook hcall) fun h => h.ne rfl
  have hkeys' : CatKeys (st.dropped io dst m).cat := hkeys.without dst
  have hrows : (st.rename io src dst noreplace).1.cat.objects.length ≤
      (Keyed.erase CatRow.path dst st.cat.objects).length := by
    rw [hcall]
    obtain hsame | hmapped := catalogRename_rows io src dst hkeys'
    · rw [hsame]
      exact Nat.le_refl _
    · rw [hmapped, length_map]
      exact Nat.le_refl _
  have hfails := not_renameAtomic_of_dropped hkeys hlook hrows
  by_cases hmoves : Moves io.move (st.cat.without dst) src dst
  · have hland := landing_dropped hmoves hkeys hsrc hne
    have hmove := catalogRename_of_moves (st.dropped io dst m) hne hkeys' hland.source hmoves
    rw [← hcall] at hmove
    cases hcommits : io.move.commits with
    | false =>
      refine iff_of_false (hfails ?_) fun h => ?_
      · rw [hmove, hcommits]
        rfl
      · rw [h.commits] at hcommits
        cases hcommits
    | true =>
      rw [hcommits, if_pos rfl] at hmove
      constructor
      · intro h
        have hview : ∀ p, ((st.cat.without dst).moveAll io.move src dst).viewAt
            (st.released io m).readObject p = renamedView st.viewAt src dst p := by
          intro p
          have hp := h p
          rwa [hmove] at hp
        obtain ⟨hclears, hfree, hread⟩ :=
          hland.clears_of_view hview hne hnames.nonempty hnames.absolute
        refine ⟨hne, fun hin => ?_, hxattrs, hmoves, hcommits, hclears, spares_iff.mpr hread⟩
        obtain ⟨r, hr, hrp⟩ := exists_row_of_lookup hlook
        exact Catalog.viewAt_eq_none.mp (hfree hin) r hr hrp
      · intro h p
        rw [hmove]
        exact hland.view_eq h.clears (fun hin => absurd hin h.outside) (spares_iff.mp h.spares) p
  · obtain ⟨e, he⟩ := catalogRename_of_not (st.dropped io dst m) hne hkeys' hmoves
    refine iff_of_false (hfails ?_) fun h => hmoves h.moves
    rw [hcall, he]
    rfl

theorem rename_of_refused {st' : RenameStore} {e : CatErr}
    (h : st.renamePrepare io src dst noreplace = (st', some e)) :
    st.rename io src dst noreplace = (st', some e) := by
  rw [rename, h]

theorem rename_of_prepared {st' : RenameStore}
    (h : st.renamePrepare io src dst noreplace = (st', none)) :
    st.rename io src dst noreplace = st'.catalogRename io src dst := by
  rw [rename, h]

/-- Over a destination, whether its row goes or not -/
theorem replaced_iff (hkeys : CatKeys st.cat) (hnames : RenameNames src dst)
    (hsrc : ∃ r ∈ st.cat.objects, r.path = src) (hlook : st.cat.lookup dst = some m)
    (hprep : st.renamePrepare io src dst noreplace = (st.released io m).removeRow io dst) :
    RenameAtomic st io src dst noreplace ↔
      if io.prep.row then st.Replaces io src dst m else st.Spares io m st.cat.objects := by
  rw [removeRow_eq, released_cat] at hprep
  cases hrow : io.prep.row with
  | false =>
    simp only [hrow, Bool.not_false, if_true] at hprep
    have hcall := rename_of_refused hprep
    have hatomic : RenameAtomic st io src dst noreplace ↔
        ∀ p, st.cat.viewAt (st.released io m).readObject p = st.cat.viewAt st.readObject p := by
      rw [RenameAtomic, hcall]
      simp [viewAt, released_cat]
    rw [hatomic, hkeys.viewAt_congr, if_neg Bool.false_ne_true, spares_iff]
  | true =>
    cases hxattrs : io.prep.xattrs with
    | false =>
      simp only [hrow, hxattrs, Bool.not_true, Bool.not_false, Bool.false_eq_true, if_false,
        if_true] at hprep
      have hcall := rename_of_refused hprep
      refine iff_of_false (not_renameAtomic_of_dropped hkeys hlook ?_ ?_) fun h => ?_
      · rw [hcall]
      · rw [hcall]
        rfl
      · rw [if_pos rfl] at h
        rw [h.xattrs] at hxattrs
        cases hxattrs
    | true =>
      simp only [hrow, hxattrs, Bool.not_true, Bool.false_eq_true, if_false] at hprep
      rw [if_pos rfl]
      exact dropped_iff hkeys hnames hsrc hlook hxattrs (rename_of_prepared hprep)

/-! ## Every call -/

/-- Nothing fails. -/
def smoothRename : RenameIo where
  prep := smoothCat
  counts := true
  lowers := true
  drops := true
  packs := true
  move := smoothCat

/-- An export with the file `/f` of one byte. -/
def loneFile : RenameStore where
  cat := ⟨[⟨[47, 102], [47], ⟨false, [1], 1, 4, 0, 0, 0o100644, 0, 0, []⟩⟩], []⟩
  zstd := ⟨id, fun _ => some⟩
  xform := .plain
  refs := false
  counts _ := none
  files := Function.update (fun _ _ => none) [1] (Function.update (fun _ => none) 0 (some [65]))
  packed _ := none

theorem loneFile_keys : CatKeys loneFile.cat := ⟨by decide, by decide⟩

/-- The directory `/d` with the file `/d/f`, which has an attribute, and the empty directory `/e` -/
def treeAndDir : RenameStore :=
  { loneFile with
    cat := ⟨[⟨[47, 100], [47], ⟨true, [], 0, 4, 0, 0, 0o40755, 0, 0, []⟩⟩,
        ⟨[47, 100, 47, 102], [47, 100], ⟨false, [1], 1, 4, 0, 0, 0o100644, 0, 0, []⟩⟩,
        ⟨[47, 101], [47], ⟨true, [], 0, 4, 0, 0, 0o40755, 0, 0, []⟩⟩],
      [⟨[47, 100, 47, 102], [97], [98]⟩]⟩ }

end RenameStore

end BrixCache
