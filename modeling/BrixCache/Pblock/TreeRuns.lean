import BrixCache.Pblock.Tree

/-!
# Runs over the namespace

Every sequence of calls keeps the namespace a tree, but a rename of a directory below
itself, which only the exchange refuses, a row put under a parent that is cut short, and a
removal whose second statement fails.
-/

namespace BrixCache

open Segments List

variable {io : CatIo} {cat cat' : Catalog} {path src dst a b : PblockPath}

theorem catTransaction_tree (h : Tree cat) {body : Except CatErr Catalog}
    (hbody : ∀ cat', body = .ok cat' → Tree cat') : Tree (catTransaction io cat body).1 := by
  unfold catTransaction
  split
  · exact h
  cases body with
  | error e => exact h
  | ok cat' =>
    have h' := hbody cat' rfl
    simp only
    split
    · exact h'
    · simp only
      split
      · exact h'
      · exact h

/-! ## A rename -/

/-- A rename moves nothing below itself, and to no parent that is cut short. -/
structure MoveClean (cat : Catalog) (src dst : PblockPath) : Prop where
  short : ∀ r ∈ cat.objects, AtOrBelow slash src r.path → Short (refront src dst r.path)
  hangs : Hangs cat src
  outside : (∃ r ∈ cat.objects, r.path = src ∧ r.info.isDir = true) → Below slash src dst →
    dirOf dst = [slash]

theorem CatRow.moved_filed {r : CatRow} (h : Short (refront src dst r.path)) :
    (r.moved src dst).Filed := parentOf_of_short h

/-- A rename leaves a tree. -/
theorem pblockCatalogRename_tree (h : Tree cat) (hsrc : ∃ r ∈ cat.objects, r.path = src)
    (hclean : cat.parentGate dst = none → MoveClean cat src dst) :
    Tree (pblockCatalogRename io cat src dst).1 := by
  rw [pblockCatalogRename]
  split
  · exact h
  next hgate =>
  have hmove := hclean hgate
  apply catTransaction_tree h
  intro cat' hok
  have hmoved := exchangeMove_moved h.unique hok
  have hdst : Short dst := by
    obtain ⟨r, hr, hpath⟩ := hsrc
    have hshort := hmove.short r hr (.inl hpath)
    rwa [hpath, refront_self] at hshort
  refine ⟨hmoved.forest h.toForest hmove.hangs ?_, ?_⟩
  · obtain hslash | hdir | ⟨d, hd, hdp, hdir⟩ := h.toForest.parentGate hgate hdst
    · exact .inl hslash
    · exact .inr (.inl hdir)
    by_cases hroot : dst = [slash]
    · exact .inl hroot
    obtain hslash | ⟨-, hparent⟩ := dirOf_cases hroot
    · exact .inr (.inl hslash)
    by_cases hat : AtOrBelow slash src d.path
    · -- the new parent would move: the destination is below the source
      rw [← hdp] at hparent
      have hbelow := hat.below (below_beforeLast hparent)
      refine .inr (.inl (hmove.outside ?_ hbelow))
      obtain heq | hlt := hat
      · exact ⟨d, hd, heq, hdir⟩
      · exact hmove.hangs.top hd hlt
    · exact .inr (.inr ⟨d, hd, hdp, hdir, hat⟩)
  · intro r' hr'
    obtain ⟨r, hr, hat, rfl⟩ | ⟨hr, -⟩ := hmoved.cases hr'
    · exact CatRow.moved_filed (hmove.short r hr hat)
    · exact h.filed r' hr

theorem pblockCatalogRename_self_tree (h : Tree cat)
    (hshort : cat.parentGate src = none →
      ∀ r ∈ cat.objects, AtOrBelow slash src r.path → Short r.path) :
    Tree (pblockCatalogRename io cat src src).1 := by
  rw [pblockCatalogRename]
  split
  · exact h
  next hgate =>
  apply catTransaction_tree h
  intro cat' hok
  have hmoved := exchangeMove_moved h.unique hok
  have hsame : cat'.objects = cat.objects := by
    rw [hmoved.objects]
    conv_rhs => rw [← map_id cat.objects]
    apply map_congr_left
    intro r hr
    split
    · next hat =>
      have hpath := refront_eq_self hat
      rw [CatRow.moved, hpath, parentOf_of_short (hshort hgate r hr hat), ← h.filed r hr]
      rfl
    · rfl
  refine ⟨⟨?_, ?_, hmoved.named h.named⟩, ?_⟩
  · rw [hsame]
    exact h.unique
  · rw [hsame]
    exact h.rooted
  · rw [hsame]
    exact h.filed

theorem MoveClean.erase (h : MoveClean cat src dst) (hbare : Bare cat dst) (hne : src ≠ dst)
    (xattrs : List XattrRow) :
    MoveClean ⟨Keyed.erase CatRow.path dst cat.objects, xattrs⟩ src dst := by
  refine ⟨?_, ?_, ?_⟩
  · intro r hr
    exact h.short r (Keyed.mem_erase.mp hr).1
  · intro r hr hbelow
    obtain ⟨hr', -⟩ := Keyed.mem_erase.mp hr
    obtain ⟨d, hd, hparent, hdir⟩ := h.hangs r hr' hbelow
    refine ⟨d, Keyed.mem_erase.mpr ⟨hd, ?_⟩, hparent, hdir⟩
    intro hdp
    by_cases hnil : dst = []
    · obtain ⟨d', hd', hat⟩ := hbelow.atOrBelow_beforeLast
      obtain rfl := Option.some.inj (hparent.symm.trans hd')
      rw [hdp, hnil] at hat
      obtain heq | hlt := hat
      · exact hne (heq ▸ hnil.symm)
      · exact absurd hlt.length (Nat.not_lt_zero _)
    · exact hbare hnil r hr' d hd hdir hparent hdp
  · rintro ⟨r, hr, hpath, hdir⟩
    exact h.outside ⟨r, (Keyed.mem_erase.mp hr).1, hpath, hdir⟩

theorem Tree.parentGate_of_erase (h : Tree cat) {xattrs : List XattrRow} {p : PblockPath}
    (hgate : Catalog.parentGate ⟨Keyed.erase CatRow.path p cat.objects, xattrs⟩ path = none) :
    cat.parentGate path = none := by
  rw [Catalog.parentGate] at hgate ⊢
  split
  · rfl
  next hroot =>
  rw [if_neg hroot] at hgate
  cases hlook : Catalog.lookup ⟨Keyed.erase CatRow.path p cat.objects, xattrs⟩ (parentOf 1024 path) with
  | none =>
    rw [hlook] at hgate
    cases hgate
  | some m =>
    rw [hlook] at hgate
    rw [Catalog.lookup, Option.map_eq_some_iff] at hlook
    obtain ⟨r, hr, hm⟩ := hlook
    obtain ⟨hmem, hpath⟩ := (Keyed.find_eq_some (h.unique.erase p)).mp hr
    rw [h.toForest.lookup_eq_some.mpr ⟨r, (Keyed.mem_erase.mp hmem).1, hpath, hm⟩]
    exact hgate

/-- A rename: its removal of what it replaces, and its move. -/
structure RenameClean (io : CatIo) (cat : Catalog) (src dst : PblockPath) : Prop where
  remove : RemoveClean io cat dst
  move : cat.parentGate dst = none → MoveClean cat src dst

variable (src) in
theorem pblockRenamePrepare_tree (h : Tree cat) (noreplace : Bool)
    (hclean : RemoveClean io cat dst) :
    Tree (pblockRenamePrepare io cat src dst noreplace).1 ∧
      ((pblockRenamePrepare io cat src dst noreplace).2 = none →
        (∃ r ∈ cat.objects, r.path = src) ∧
          ((pblockRenamePrepare io cat src dst noreplace).1 = cat ∨
            Bare cat dst ∧ (pblockRenamePrepare io cat src dst noreplace).1 =
              ⟨Keyed.erase CatRow.path dst cat.objects,
                cat.xattrs.filter fun x => x.path ≠ dst⟩)) := by
  unfold pblockRenamePrepare
  split
  · exact ⟨h, (fun h => by cases h)⟩
  cases hsrc : cat.lookup src with
  | none => exact ⟨h, (fun h => by cases h)⟩
  | some m =>
    obtain ⟨r, hr, hpath, -⟩ := h.toForest.lookup_eq_some.mp hsrc
    simp only
    split
    · exact ⟨h, (fun h => by cases h)⟩
    cases hdst : cat.lookup dst with
    | none => exact ⟨h, fun _ => ⟨⟨r, hr, hpath⟩, .inl rfl⟩⟩
    | some old =>
      simp only
      split
      · exact ⟨h, (fun h => by cases h)⟩
      · obtain ⟨htree, hdone⟩ := catDropDst_tree h hdst hclean
        refine ⟨htree, fun hnone => ⟨⟨r, hr, hpath⟩, .inr (hdone hnone)⟩⟩

theorem sdPblockMove_tree (h : Tree cat) {noreplace : Bool} (hclean : RenameClean io cat src dst) :
    Tree (sdPblockMove io cat src dst noreplace).1 := by
  obtain ⟨htree, hdone⟩ := pblockRenamePrepare_tree src h noreplace hclean.remove
  unfold sdPblockMove
  split
  · next cat' e heq =>
    rw [heq] at htree
    exact htree
  next cat' heq =>
  rw [heq] at htree hdone
  obtain ⟨hsrc, hsame | ⟨hbare, herased⟩⟩ := hdone rfl
  · obtain rfl : cat' = cat := hsame
    exact pblockCatalogRename_tree h hsrc hclean.move
  · obtain rfl : cat' = _ := herased
    by_cases hself : src = dst
    · subst hself
      apply pblockCatalogRename_self_tree htree
      intro hgate r hr hat
      have hshort := (hclean.move (h.parentGate_of_erase hgate)).short r (Keyed.mem_erase.mp hr).1 hat
      rwa [refront_eq_self hat] at hshort
    · apply pblockCatalogRename_tree htree
      · obtain ⟨r, hr, hpath⟩ := hsrc
        exact ⟨r, Keyed.mem_erase.mpr ⟨hr, by rwa [hpath]⟩, hpath⟩
      · intro hgate
        exact (hclean.move (h.parentGate_of_erase hgate)).erase hbare hself _

/-! ## An exchange -/

/-- An exchange of names that a client can send, to no parent that is cut short. -/
structure ExchangeClean (cat : Catalog) (a b : PblockPath) : Prop where
  ne_nil : a ≠ [] ∧ b ≠ []
  unreserved : ¬AtOrBelow slash xchgTmp a ∧ ¬AtOrBelow slash xchgTmp b
  hangs : Hangs cat a ∧ Hangs cat b
  short_ab : ∀ r ∈ cat.objects, AtOrBelow slash a r.path → Short (refront a b r.path)
  short_ba : ∀ r ∈ cat.objects, AtOrBelow slash b r.path → Short (refront b a r.path)

theorem not_below_xchgTmp (h : path ≠ []) : ¬Below slash path xchgTmp := by
  intro hbelow
  obtain ⟨d, hd, hat⟩ := hbelow.atOrBelow_beforeLast
  rw [show beforeLast slash xchgTmp = some [] from rfl] at hd
  cases hd
  obtain heq | hlt := hat
  · exact h heq.symm
  · exact absurd hlt.length (Nat.not_lt_zero _)

theorem not_atOrBelow_both (hne : path ≠ []) (hout : ¬AtOrBelow slash xchgTmp path)
    {p : PblockPath} (hat : AtOrBelow slash path p) : ¬AtOrBelow slash xchgTmp p := by
  intro htmp
  obtain (heq | hlt) | hlt := hat.comparable htmp
  · exact hout (.inl heq.symm)
  · exact not_below_xchgTmp hne hlt
  · exact hout (.inr hlt)

theorem Moved.top (h : Moved src dst cat cat') (hangs : Hangs cat src) :
    ∃ r ∈ cat.objects, r.path = src := by
  obtain ⟨r, hr, heq | hbelow⟩ := h.some_row
  · exact ⟨r, hr, heq⟩
  · obtain ⟨d, hd, hpath, -⟩ := hangs.top hr hbelow
    exact ⟨d, hd, hpath⟩

theorem not_atOrBelow_dirOf {d : PblockPath} (hparent : beforeLast slash path = some d) :
    ¬AtOrBelow slash path d := by
  have hlen := length_beforeLast hparent
  rintro (rfl | hlt)
  · omega
  · have := hlt.length
    omega

theorem exchangeMoves_ok (h : exchangeMoves io cat a b = .ok cat') :
    ∃ cat₁ cat₂, exchangeMove io cat a xchgTmp = .ok cat₁ ∧ exchangeMove io cat₁ b a = .ok cat₂ ∧
      exchangeMove io cat₂ xchgTmp b = .ok cat' := by
  rw [exchangeMoves] at h
  split at h
  · cases h
  next cat₁ h₁ =>
  split at h
  · cases h
  next cat₂ h₂ =>
  exact ⟨cat₁, cat₂, h₁, h₂, h⟩

/-- An exchange leaves a tree. -/
theorem exchangeMoves_tree (h : Tree cat) (hnest : ¬(AtOrBelow slash a b ∨ Below slash b a))
    (hclean : ExchangeClean cat a b) (hok : exchangeMoves io cat a b = .ok cat') : Tree cat' := by
  obtain ⟨hab, hba⟩ := not_or.mp hnest
  obtain ⟨⟨hanil, hbnil⟩, ⟨haout, hbout⟩, ⟨hhanga, hhangb⟩, hshortab, hshortba⟩ := hclean
  obtain ⟨cat₁, cat₂, hok₁, hok₂, hok₃⟩ := exchangeMoves_ok hok
  have hm₁ := exchangeMove_moved h.unique hok₁
  have hm₂ := exchangeMove_moved hm₁.unique hok₂
  have hm₃ := exchangeMove_moved hm₂.unique hok₃
  -- nothing is at or below both names
  have hapart : ∀ {p}, AtOrBelow slash a p → ¬AtOrBelow slash b p := by
    intro p hpa hpb
    obtain hat | hlt := hpa.comparable hpb
    · exact hab hat
    · exact hba hlt
  -- the reserved name is taken by what is moved there alone
  obtain ⟨ra, hra, hrapath⟩ := hm₁.top hhanga
  have hfresh : ∀ r ∈ cat.objects, ¬AtOrBelow slash a r.path → ¬AtOrBelow slash xchgTmp r.path := by
    intro r hr hout hat
    have htop : ∃ t ∈ cat.objects, t.path = xchgTmp := by
      obtain heq | hlt := hat
      · exact ⟨r, hr, heq⟩
      · have hhang : Hangs cat xchgTmp := h.toForest.hangs (by decide) (by decide)
        obtain ⟨t, ht, hpath, -⟩ := hhang.top hr hlt
        exact ⟨t, ht, hpath⟩
    obtain ⟨t, ht, htpath⟩ := htop
    have htout : ¬AtOrBelow slash a t.path := fun htat =>
      not_atOrBelow_both hanil haout htat (.inl htpath)
    refine hm₁.ne_of_kept hra ht (.inl hrapath) htout ?_
    rw [CatRow.moved, hrapath, htpath]
    exact refront_self a xchgTmp
  have haside : ∀ r : CatRow, AtOrBelow slash a r.path →
      AtOrBelow slash xchgTmp (r.moved a xchgTmp).path := fun r hat => refront_atOrBelow hat xchgTmp
  -- the first move
  have hforest₁ : Forest cat₁ := hm₁.forest h.toForest hhanga (.inr (.inl rfl))
  -- the second
  have hhang₁ : Hangs cat₁ b := by
    by_cases hroot : b = [slash]
    · intro r hr hlt
      obtain ⟨r₀, hr₀, hat, rfl⟩ | ⟨hr₀, hout⟩ := hm₁.cases hr
      · exact absurd (haside r₀ hat) (not_atOrBelow_both hbnil hbout (.inr hlt))
      · obtain ⟨d, hd, hparent, hdir⟩ := hhangb r hr₀ hlt
        obtain ⟨d', hd', hat⟩ := hlt.atOrBelow_beforeLast
        obtain rfl := Option.some.inj (hparent.symm.trans hd')
        exact ⟨d, hm₁.mem_kept hd fun hda => hapart hda hat, hparent, hdir⟩
    · exact hforest₁.hangs hbnil hroot
  obtain ⟨rb, hrb, hrbpath⟩ := hm₂.top hhang₁
  have hforest₂ : Forest cat₂ := by
    refine hm₂.forest hforest₁ hhang₁ ?_
    by_cases hroot : a = [slash]
    · exact .inl hroot
    obtain hslash | ⟨-, hparent⟩ := dirOf_cases hroot
    · exact .inr (.inl hslash)
    obtain hslash | ⟨d, hd, hdp, hdir⟩ := h.rooted ra hra (by rwa [hrapath])
    · rw [hrapath] at hslash
      exact .inr (.inl hslash)
    · rw [hrapath] at hdp
      rw [← hdp] at hparent
      refine .inr (.inr ⟨d, hm₁.mem_kept hd (not_atOrBelow_dirOf hparent), hdp, hdir, ?_⟩)
      intro hat
      exact hba (hat.below (below_beforeLast hparent))
  -- the third
  have hforest₃ : Forest cat' := by
    refine hm₃.forest hforest₂ (hforest₂.hangs (by decide) (by decide)) ?_
    by_cases hroot : b = [slash]
    · exact .inl hroot
    obtain hslash | ⟨-, hparent⟩ := dirOf_cases hroot
    · exact .inr (.inl hslash)
    obtain hslash | ⟨d, hd, hdp, hdir⟩ := hforest₁.rooted rb hrb (by rwa [hrbpath])
    · rw [hrbpath] at hslash
      exact .inr (.inl hslash)
    · rw [hrbpath] at hdp
      rw [← hdp] at hparent
      refine .inr (.inr ⟨d, hm₂.mem_kept hd (not_atOrBelow_dirOf hparent), hdp, hdir, ?_⟩)
      intro hat
      exact hbout (.inr (hat.below (below_beforeLast hparent)))
  refine ⟨hforest₃, ?_⟩
  intro r₃ hr₃
  obtain ⟨r₂, hr₂, hat, rfl⟩ | ⟨hr₂, hout⟩ := hm₃.cases hr₃
  · -- what went aside and came back
    obtain ⟨r₁, hr₁, hat₁, rfl⟩ | ⟨hr₁, -⟩ := hm₂.cases hr₂
    · exact absurd hat (not_atOrBelow_both hanil haout (refront_atOrBelow hat₁ a))
    · obtain ⟨r, hr, hat₀, rfl⟩ | ⟨hr, hout⟩ := hm₁.cases hr₁
      · apply CatRow.moved_filed
        have hpath : refront xchgTmp b (r.moved a xchgTmp).path = refront a b r.path :=
          refront_refront a xchgTmp b r.path
        rw [hpath]
        exact hshortab r hr hat₀
      · exact absurd hat (hfresh r₂ hr hout)
  · obtain ⟨r₁, hr₁, hat₁, rfl⟩ | ⟨hr₁, -⟩ := hm₂.cases hr₂
    · obtain ⟨r, hr, hat₀, rfl⟩ | ⟨hr, -⟩ := hm₁.cases hr₁
      · exact absurd (haside r hat₀) (not_atOrBelow_both hbnil hbout hat₁)
      · exact CatRow.moved_filed (hshortba r₁ hr hat₁)
    · obtain ⟨r, hr, hat₀, rfl⟩ | ⟨hr, -⟩ := hm₁.cases hr₁
      · exact absurd (haside r hat₀) hout
      · exact h.filed r₃ hr

theorem sdPblockExchange_tree (h : Tree cat) (hclean : ExchangeClean cat a b) :
    Tree (sdPblockExchange io cat a b).1 := by
  rw [sdPblockExchange]
  split
  · exact h
  rw [pblockCatalogExchange]
  split
  · exact h
  · next hnest =>
    exact catTransaction_tree h fun cat' hok => exchangeMoves_tree h hnest hclean hok

/-! ## The other calls -/

theorem sdPblockMkdir_tree (h : Tree cat)
    (hclean : ∀ canon, pblockPathCanon path = some canon → PutClean cat canon) (m : CatMeta) :
    Tree (sdPblockMkdir io cat path m).1 := by
  rw [sdPblockMkdir]
  split
  · exact h
  next canon hcanon =>
  split
  · exact h
  · exact pblockCatalogCreate_tree h (hclean canon hcanon) _

theorem sdPblockOpenCreate_tree (h : Tree cat) (hclean : PutClean cat path) (m : CatMeta) :
    Tree (sdPblockOpenCreate io cat path m).1 := by
  rw [sdPblockOpenCreate]
  split
  · exact h
  split
  · exact h
  next hlook =>
  split
  · exact h
  · exact pblockCatalogPut_tree h (Catalog.lookup_eq_none.mp hlook) hclean _

theorem sdPblockRemove_tree (h : Tree cat) {isDir : Bool} (hclean : RemoveClean io cat path) :
    Tree (sdPblockRemove io cat path isDir).1 := by
  rw [sdPblockRemove]
  split
  · exact h
  split
  · exact h
  next m hlook =>
  split
  · exact h
  split
  · split
    · exact h
    split
    · exact h
    split
    · exact h
    · next hcount => exact pblockCatalogRemoveRow_tree h (h.bare_of_childCount hcount) hclean
  · split
    · exact h
    · next hfile =>
      exact pblockCatalogRemoveRow_tree h (h.toForest.bare_of_file hlook (by simpa using hfile)) hclean

theorem catDropDst_clean {m : CatMeta} (h : (catDropDst io cat path m).2 = none) :
    RemoveClean io cat path := by
  intro _ _
  by_contra hxattrs
  have hfails : io.xattrs = false := eq_false_of_ne_true hxattrs
  unfold catDropDst pblockCatalogRemoveRow at h
  rw [hfails] at h
  split at h
  · cases h
  split at h
  · cases h
  split at h
  · cases h
  · cases h

/-- A publish leaves a tree. -/
theorem sdPblockStagedPublish_tree (h : Tree cat) (hclean : PutClean cat path) (m : CatMeta) :
    Tree (sdPblockStagedPublish io cat path m).1 := by
  apply catTransaction_tree h
  intro cat' hok
  unfold stagedPublish at hok
  split at hok
  · cases hok
  split at hok
  · cases hok
  -- what is put is put where there is nothing
  have hput : ∀ cat₁ : Catalog, Tree cat₁ → (∀ r ∈ cat₁.objects, r.path ≠ path) →
      PutClean cat₁ path → ∀ cat₂, pblockCatalogPut io cat₁ path { m with isDir := false } =
        (cat₂, none) → Tree cat₂ := by
    intro cat₁ h₁ habsent hclean₁ cat₂ heq
    have htree : Tree (pblockCatalogPut io cat₁ path { m with isDir := false }).1 :=
      pblockCatalogPut_tree h₁ habsent hclean₁ _
    rwa [heq] at htree
  cases hlook : cat.lookup path with
  | none =>
    rw [hlook] at hok
    simp only at hok
    split at hok
    · cases hok
    · next cat₂ heq =>
      obtain rfl := Except.ok.inj hok
      exact hput cat h (Catalog.lookup_eq_none.mp hlook) hclean cat₂ heq
  | some old =>
    rw [hlook] at hok
    cases hdrop : catDropDst io cat path old with
    | mk cat₁ e =>
      simp only [hdrop] at hok
      cases e with
      | some e => cases hok
      | none =>
        have hnone : (catDropDst io cat path old).2 = none := by rw [hdrop]
        obtain ⟨htree, herased⟩ := catDropDst_tree h hlook (catDropDst_clean hnone)
        obtain ⟨-, heq⟩ := herased hnone
        rw [hdrop] at htree heq
        simp only at htree heq
        subst heq
        simp only at hok
        split at hok
        · cases hok
        · next cat₂ hres =>
          obtain rfl := Except.ok.inj hok
          refine hput _ htree ?_ ?_ cat₂ hres
          · intro r hr
            exact (Keyed.mem_erase.mp hr).2
          · intro hgate
            exact hclean (h.parentGate_of_erase hgate)

theorem Tree.of_xattrs (h : Tree cat) {xattrs : List XattrRow}
    (hx : ∀ x ∈ xattrs, ∃ r ∈ cat.objects, r.path = x.path) : Tree { cat with xattrs } :=
  ⟨⟨h.unique, h.rooted, hx⟩, h.filed⟩

theorem pblockCatalogSetxattr_tree (h : Tree cat) {name value : Bytes} {mode : XattrMode} :
    Tree (pblockCatalogSetxattr io cat path name value mode).1 := by
  unfold pblockCatalogSetxattr
  split
  · exact h
  split
  · exact h
  next hlook =>
  obtain ⟨m, hm⟩ := Option.ne_none_iff_exists'.mp (by simpa using hlook)
  obtain ⟨r, hr, hpath, -⟩ := h.toForest.lookup_eq_some.mp hm
  split
  · exact h
  cases mode with
  | create =>
    simp only
    split
    · exact h
    next xattrs hins =>
    obtain ⟨-, rfl⟩ := Keyed.insert_eq_some.mp hins
    apply h.of_xattrs
    intro x hx
    obtain rfl | hin := mem_cons.mp hx
    · exact ⟨r, hr, hpath⟩
    · exact h.named x hin
  | replace =>
    simp only
    split
    · exact h
    · apply h.of_xattrs
      intro x hx
      obtain ⟨y, hy, rfl⟩ := mem_map.mp hx
      obtain ⟨r', hr', hpath'⟩ := h.named y hy
      refine ⟨r', hr', ?_⟩
      split
      · exact hpath'
      · exact hpath'
  | upsert =>
    apply h.of_xattrs
    intro x hx
    obtain rfl | ⟨hin, -⟩ := Keyed.mem_replace.mp hx
    · exact ⟨r, hr, hpath⟩
    · exact h.named x hin

theorem pblockCatalogRemovexattr_tree (h : Tree cat) {name : Bytes} :
    Tree (pblockCatalogRemovexattr io cat path name).1 := by
  unfold pblockCatalogRemovexattr
  split
  · exact h
  split
  · exact h
  split
  · exact h
  split
  · exact h
  · apply h.of_xattrs
    intro x hx
    exact h.named x (Keyed.mem_erase.mp hx).1

/-! ## Runs -/

/-- The calls that change the namespace -/
inductive NsCall : Type where
  | mkdir : CatIo → PblockPath → CatMeta → NsCall
  | create : CatIo → PblockPath → CatMeta → NsCall
  | stagedCommit : CatIo → PblockPath → CatMeta → NsCall
  | unlink : CatIo → PblockPath → NsCall
  | rmdir : CatIo → PblockPath → NsCall
  | rename : CatIo → PblockPath → PblockPath → Bool → NsCall
  | exchange : CatIo → PblockPath → PblockPath → NsCall
  | setxattr : CatIo → PblockPath → Bytes → Bytes → XattrMode → NsCall
  | removexattr : CatIo → PblockPath → Bytes → NsCall

namespace NsCall

/-- What a call leaves, with or without an error. -/
def exec (cat : Catalog) : NsCall → Catalog
  | mkdir io path m => (sdPblockMkdir io cat path m).1
  | create io path m => (sdPblockOpenCreate io cat path m).1
  | stagedCommit io path m => (sdPblockStagedPublish io cat path m).1
  | unlink io path => (sdPblockRemove io cat path false).1
  | rmdir io path => (sdPblockRemove io cat path true).1
  | rename io src dst noreplace => (sdPblockMove io cat src dst noreplace).1
  | exchange io a b => (sdPblockExchange io cat a b).1
  | setxattr io path name value mode => (pblockCatalogSetxattr io cat path name value mode).1
  | removexattr io path name => (pblockCatalogRemovexattr io cat path name).1

def Clean (cat : Catalog) : NsCall → Prop
  | mkdir _ path _ => ∀ canon, pblockPathCanon path = some canon → PutClean cat canon
  | create _ path _ => PutClean cat path
  | stagedCommit _ path _ => PutClean cat path
  | unlink io path => RemoveClean io cat path
  | rmdir io path => RemoveClean io cat path
  | rename io src dst _ => RenameClean io cat src dst
  | exchange _ a b => ExchangeClean cat a b
  | setxattr _ _ _ _ _ => True
  | removexattr _ _ _ => True

theorem exec_tree (h : Tree cat) {call : NsCall} (hclean : call.Clean cat) :
    Tree (call.exec cat) := by
  cases call with
  | mkdir io path m => exact sdPblockMkdir_tree h hclean m
  | create io path m => exact sdPblockOpenCreate_tree h hclean m
  | stagedCommit io path m => exact sdPblockStagedPublish_tree h hclean m
  | unlink io path | rmdir io path => exact sdPblockRemove_tree h hclean
  | rename io src dst noreplace => exact sdPblockMove_tree h hclean
  | exchange io a b => exact sdPblockExchange_tree h hclean
  | setxattr io path name value mode => exact pblockCatalogSetxattr_tree h
  | removexattr io path name => exact pblockCatalogRemovexattr_tree h

end NsCall

/-- A call that ran -/
def NsStep (cat : Catalog) (call : NsCall) (cat' : Catalog) : Prop := cat' = call.exec cat

/-- The catalog of a new export: the root's row, or none if it could not be put. -/
def Catalog.Fresh (cat : Catalog) : Prop :=
  cat.xattrs = [] ∧ (cat.objects = [] ∨ ∃ m : CatMeta, cat.objects = [⟨[slash], [], m⟩])

theorem Catalog.Fresh.tree (h : cat.Fresh) : Tree cat := by
  obtain ⟨hxattrs, hobjects⟩ := h
  have hnamed : ∀ x ∈ cat.xattrs, ∃ r ∈ cat.objects, r.path = x.path := by
    rw [hxattrs]
    nofun
  obtain hnil | ⟨m, hroot⟩ := hobjects
  · refine ⟨⟨?_, ?_, hnamed⟩, ?_⟩
    · rw [hnil]
      exact nodup_nil
    · rw [hnil]
      nofun
    · rw [hnil]
      nofun
  · refine ⟨⟨?_, ?_, hnamed⟩, ?_⟩
    · rw [hroot]
      exact nodup_singleton _
    · rw [hroot]
      intro r hr hne
      obtain rfl := mem_singleton.mp hr
      exact absurd rfl hne
    · rw [hroot]
      intro r hr
      obtain rfl := mem_singleton.mp hr
      rfl

/-- Nothing fails. -/
def smoothCat : CatIo where
  looksUp := true
  gates := true
  counts := true
  row := true
  xattrs := true
  begins := true
  commits := true
  stays := false
  order := id
  order_perm l := .refl l

/-- A directory's columns. -/
def dirMeta : CatMeta := ⟨true, [], 0, 0, 0, 0, 0o40755, 0, 0, []⟩

def freshCatalog : Catalog := ⟨[⟨[slash], [], dirMeta⟩], []⟩

theorem freshCatalog_fresh : freshCatalog.Fresh := ⟨rfl, .inr ⟨dirMeta, rfl⟩⟩

/-- The directory `/a`. -/
def oneDir : Catalog := (NsCall.mkdir smoothCat [47, 97] dirMeta).exec freshCatalog

end BrixCache
