import BrixCache.Lib.Run
import BrixCache.Pblock.Catalog

/-!
# The namespace is a tree

A row's parent is the root or a directory's row, its parent column says so, no two rows
have one path, and an attribute is of a path with a row. A rename that does not go
below itself moves a subtree as a whole; the reserved name an exchange goes through is
taken by nothing else.
-/

namespace BrixCache

open Segments List

variable {io : CatIo} {cat cat' : Catalog} {path src dst : PblockPath}

/-! ## Parents -/

/-- The parent of a path, whole. -/
def dirOf (path : PblockPath) : PblockPath :=
  if path = [slash] then []
  else
    match beforeLast slash path with
    | none => [slash]
    | some [] => [slash]
    | some (c :: d) => c :: d

/-- The parent fits the buffer it is copied to. -/
def Short (path : PblockPath) : Prop := (dirOf path).length < 1024

instance : Decidable (Short path) := inferInstanceAs (Decidable (_ < _))

theorem parentOf_of_short (h : Short path) : parentOf 1024 path = dirOf path := by
  rw [Short, dirOf] at h
  rw [parentOf, dirOf]
  split
  · rfl
  next hroot =>
  rw [if_neg hroot] at h
  cases hb : beforeLast slash path with
  | none => rfl
  | some d =>
    cases d with
    | nil => rfl
    | cons c d =>
      rw [hb] at h
      exact take_of_length_le (Nat.le_of_lt_succ h)

theorem dirOf_eq {d : PblockPath} (h : beforeLast slash path = some d) (hd : d ≠ []) :
    dirOf path = d := by
  have hroot : path ≠ [slash] := by
    rintro rfl
    rw [show beforeLast slash [slash] = some [] from rfl] at h
    exact hd (Option.some.inj h).symm
  rw [dirOf, if_neg hroot, h]
  cases d with
  | nil => exact absurd rfl hd
  | cons c d => rfl

theorem dirOf_cases (hroot : path ≠ [slash]) :
    dirOf path = [slash] ∨ (dirOf path ≠ [] ∧ beforeLast slash path = some (dirOf path)) := by
  rw [dirOf, if_neg hroot]
  cases hb : beforeLast slash path with
  | none => exact .inl rfl
  | some d =>
    cases d with
    | nil => exact .inl rfl
    | cons c d => exact .inr ⟨cons_ne_nil c d, rfl⟩

/-! ## What a tree is -/

/-- The rows hang together, whatever their parent columns say. -/
structure Forest (cat : Catalog) : Prop where
  unique : Keyed.Unique CatRow.path cat.objects
  rooted : ∀ r ∈ cat.objects, r.path ≠ [slash] → dirOf r.path = [slash] ∨
    ∃ d ∈ cat.objects, d.path = dirOf r.path ∧ d.info.isDir = true
  named : ∀ x ∈ cat.xattrs, ∃ r ∈ cat.objects, r.path = x.path

/-- A parent column says what the path says. -/
def CatRow.Filed (r : CatRow) : Prop := r.parent = dirOf r.path

/-- Rows that form a tree, each one's kind on record -/
structure Tree (cat : Catalog) : Prop extends Forest cat where
  filed : ∀ r ∈ cat.objects, r.Filed

/-- Every row below `src` hangs from a directory's row. -/
def Hangs (cat : Catalog) (src : PblockPath) : Prop :=
  ∀ r ∈ cat.objects, Below slash src r.path →
    ∃ d ∈ cat.objects, beforeLast slash r.path = some d.path ∧ d.info.isDir = true

theorem Forest.hangs (h : Forest cat) (hnil : src ≠ []) (hroot : src ≠ [slash]) : Hangs cat src := by
  intro r hr hbelow
  obtain ⟨d, hd, hat⟩ := hbelow.atOrBelow_beforeLast
  have hne : d ≠ [] := by
    rintro rfl
    obtain heq | hlt := hat
    · exact hnil heq.symm
    · exact absurd hlt.length (Nat.not_lt_zero _)
  have hdir := dirOf_eq hd hne
  have hpath : r.path ≠ [slash] := by
    intro heq
    have hlt := hbelow.length
    rw [heq, length_singleton] at hlt
    exact hnil (eq_nil_of_length_eq_zero (by omega))
  obtain hslash | ⟨p, hp, hpp, hpdir⟩ := h.rooted r hr hpath
  · rw [hdir] at hslash
    subst hslash
    obtain heq | hlt := hat
    · exact absurd heq.symm hroot
    · have hlen := hlt.length
      rw [length_singleton] at hlen
      exact absurd (eq_nil_of_length_eq_zero (by omega)) hnil
  · rw [hdir] at hpp
    exact ⟨p, hp, by rw [hd, hpp], hpdir⟩

theorem Hangs.top (h : Hangs cat src) {r : CatRow} (hr : r ∈ cat.objects)
    (hbelow : Below slash src r.path) :
    ∃ d ∈ cat.objects, d.path = src ∧ d.info.isDir = true := by
  induction hlen : r.path.length using Nat.strong_induction_on generalizing r with
  | _ n ih =>
    obtain ⟨d, hd, hparent, hdir⟩ := h r hr hbelow
    obtain ⟨d', hd', hat⟩ := hbelow.atOrBelow_beforeLast
    obtain rfl := Option.some.inj (hparent.symm.trans hd')
    obtain heq | hlt := hat
    · exact ⟨d, hd, heq, hdir⟩
    · have hshort := length_beforeLast hparent
      exact ih d.path.length (by omega) hd hlt rfl

/-! ## Lookups -/

theorem Forest.lookup_eq_some (h : Forest cat) {m : CatMeta} :
    cat.lookup path = some m ↔ ∃ r ∈ cat.objects, r.path = path ∧ r.info = m := by
  rw [Catalog.lookup, Option.map_eq_some_iff]
  constructor
  · rintro ⟨r, hr, hm⟩
    obtain ⟨hmem, hpath⟩ := (Keyed.find_eq_some h.unique).mp hr
    exact ⟨r, hmem, hpath, hm⟩
  · rintro ⟨r, hmem, hpath, hm⟩
    exact ⟨r, (Keyed.find_eq_some h.unique).mpr ⟨hmem, hpath⟩, hm⟩

theorem Catalog.lookup_eq_none : cat.lookup path = none ↔ ∀ r ∈ cat.objects, r.path ≠ path := by
  rw [Catalog.lookup, Option.map_eq_none_iff, Keyed.find_eq_none]

theorem Forest.parentGate (h : Forest cat) (hgate : cat.parentGate path = none) (hshort : Short path) :
    path = [slash] ∨ dirOf path = [slash] ∨
      ∃ d ∈ cat.objects, d.path = dirOf path ∧ d.info.isDir = true := by
  rw [Catalog.parentGate, parentOf_of_short hshort] at hgate
  by_cases hroot : path = [slash]
  · exact .inl hroot
  obtain hdir | ⟨hne, -⟩ := dirOf_cases hroot
  · exact .inr (.inl hdir)
  by_cases hdir : dirOf path = [slash]
  · exact .inr (.inl hdir)
  simp only [hne, hdir, or_self, if_false] at hgate
  cases hlook : cat.lookup (dirOf path) with
  | none =>
    rw [hlook] at hgate
    cases hgate
  | some m =>
    rw [hlook] at hgate
    obtain ⟨d, hd, hpath, rfl⟩ := h.lookup_eq_some.mp hlook
    refine .inr (.inr ⟨d, hd, hpath, ?_⟩)
    by_contra hfile
    simp [hfile] at hgate

/-! ## Rows that come and go -/

theorem Forest.of_subset (h : Forest cat) {objects : List CatRow} {xattrs : List XattrRow}
    (hunique : Keyed.Unique CatRow.path objects) (hsub : ∀ r ∈ objects, r ∈ cat.objects)
    (hkept : ∀ r ∈ objects, ∀ d ∈ cat.objects, d.path ≠ [] → d.info.isDir = true →
      beforeLast slash r.path = some d.path → d ∈ objects)
    (hnamed : ∀ x ∈ xattrs, ∃ r ∈ objects, r.path = x.path) : Forest ⟨objects, xattrs⟩ := by
  refine ⟨hunique, ?_, hnamed⟩
  intro r hr hroot
  obtain hslash | ⟨d, hd, hpath, hdir⟩ := h.rooted r (hsub r hr) hroot
  · exact .inl hslash
  · obtain hslash | ⟨hne, hparent⟩ := dirOf_cases hroot
    · exact .inl hslash
    · rw [← hpath] at hne hparent
      exact .inr ⟨d, hkept r hr d hd hne hdir hparent, hpath, hdir⟩

/-- Nothing hangs from the path, unless it is empty. -/
def Bare (cat : Catalog) (path : PblockPath) : Prop :=
  path ≠ [] → ∀ r ∈ cat.objects, ∀ d ∈ cat.objects, d.info.isDir = true →
    beforeLast slash r.path = some d.path → d.path ≠ path

/-- The second statement of a removal does not fail where it has something to do. -/
def RemoveClean (io : CatIo) (cat : Catalog) (path : PblockPath) : Prop :=
  io.row = true → (∃ x ∈ cat.xattrs, x.path = path) → io.xattrs = true

/-- A removal leaves a tree. -/
theorem pblockCatalogRemoveRow_tree (h : Tree cat) (hbare : Bare cat path)
    (hclean : RemoveClean io cat path) : Tree (pblockCatalogRemoveRow io cat path).1 := by
  have herase : ∀ xattrs : List XattrRow, (∀ x ∈ xattrs, x ∈ cat.xattrs ∧ x.path ≠ path) →
      Tree ⟨Keyed.erase CatRow.path path cat.objects, xattrs⟩ := by
    intro xattrs hx
    refine ⟨h.of_subset (h.unique.erase path) (fun r hr => (Keyed.mem_erase.mp hr).1) ?_ ?_, ?_⟩
    · intro r hr d hd hne hdir hparent
      refine Keyed.mem_erase.mpr ⟨hd, ?_⟩
      intro hdp
      exact hbare (hdp ▸ hne) r (Keyed.mem_erase.mp hr).1 d hd hdir hparent hdp
    · intro x hxin
      obtain ⟨hxcat, hne⟩ := hx x hxin
      obtain ⟨r, hr, hrx⟩ := h.named x hxcat
      exact ⟨r, Keyed.mem_erase.mpr ⟨hr, by rwa [hrx]⟩, hrx⟩
    · intro r hr
      exact h.filed r (Keyed.mem_erase.mp hr).1
  rw [pblockCatalogRemoveRow]
  split
  · exact h
  next hrow =>
  split
  · next hxattrs =>
    apply herase
    intro x hx
    refine ⟨hx, ?_⟩
    intro hpath
    have hdone := hclean (by simpa using hrow) ⟨x, hx, hpath⟩
    simp [hdone] at hxattrs
  · apply herase
    intro x hx
    simpa using mem_filter.mp hx

theorem Forest.bare_of_file (h : Forest cat) {m : CatMeta} (hlook : cat.lookup path = some m)
    (hfile : m.isDir = false) : Bare cat path := by
  obtain ⟨f, hf, hpath, rfl⟩ := h.lookup_eq_some.mp hlook
  intro _ r hr d hd hisDir _ hdp
  have hsame : d = f := inj_on_of_nodup_map h.unique hd hf (hdp.trans hpath.symm)
  rw [hsame, hfile] at hisDir
  cases hisDir

theorem Tree.bare_of_childCount (h : Tree cat) (hcount : ¬0 < cat.childCount path) :
    Bare cat path := by
  intro hne r hr d hd _ hparent hdp
  rw [hdp] at hparent
  have hnone := countP_eq_zero.mp (Nat.eq_zero_of_not_pos hcount) r hr
  rw [h.filed r hr, dirOf_eq hparent hne] at hnone
  simp at hnone

theorem catDropDst_tree (h : Tree cat) {m : CatMeta} (hlook : cat.lookup path = some m)
    (hclean : RemoveClean io cat path) :
    Tree (catDropDst io cat path m).1 ∧
      ((catDropDst io cat path m).2 = none → Bare cat path ∧
        (catDropDst io cat path m).1 = ⟨Keyed.erase CatRow.path path cat.objects,
          cat.xattrs.filter fun x => x.path ≠ path⟩) := by
  have hdone : (pblockCatalogRemoveRow io cat path).2 = none →
      (pblockCatalogRemoveRow io cat path).1 = ⟨Keyed.erase CatRow.path path cat.objects,
        cat.xattrs.filter fun x => x.path ≠ path⟩ := by
    rw [pblockCatalogRemoveRow]
    split
    · intro hnone
      cases hnone
    split
    · intro hnone
      cases hnone
    · intro _
      rfl
  rw [catDropDst]
  split
  · exact ⟨h, nofun⟩
  split
  · exact ⟨h, nofun⟩
  next hcond =>
  have hbare : Bare cat path := by
    cases hdir : m.isDir with
    | false => exact h.bare_of_file hlook hdir
    | true => exact h.bare_of_childCount fun hpos => hcond ⟨hdir, hpos⟩
  exact ⟨pblockCatalogRemoveRow_tree h hbare hclean, fun hnone => ⟨hbare, hdone hnone⟩⟩

theorem Tree.cons (h : Tree cat) (hgate : cat.parentGate path = none) (hshort : Short path)
    (habsent : ∀ r ∈ cat.objects, r.path ≠ path) (m : CatMeta) :
    Tree { cat with objects := ⟨path, parentOf 1024 path, m⟩ :: cat.objects } := by
  refine ⟨⟨h.unique.cons habsent, ?_, ?_⟩, ?_⟩
  · intro r hr hroot
    obtain rfl | hin := mem_cons.mp hr
    · obtain hpath | hslash | ⟨d, hd, hdp, hdir⟩ := h.toForest.parentGate hgate hshort
      · exact absurd hpath hroot
      · exact .inl hslash
      · exact .inr ⟨d, mem_cons_of_mem _ hd, hdp, hdir⟩
    · obtain hslash | ⟨d, hd, hdp, hdir⟩ := h.rooted r hin hroot
      · exact .inl hslash
      · exact .inr ⟨d, mem_cons_of_mem _ hd, hdp, hdir⟩
  · intro x hx
    obtain ⟨r, hr, hrx⟩ := h.named x hx
    exact ⟨r, mem_cons_of_mem _ hr, hrx⟩
  · intro r hr
    obtain rfl | hin := mem_cons.mp hr
    · exact parentOf_of_short hshort
    · exact h.filed r hin

/-- A put whose gate passes is of a path that fits. -/
def PutClean (cat : Catalog) (path : PblockPath) : Prop := cat.parentGate path = none → Short path

theorem pblockCatalogPut_tree (h : Tree cat) (habsent : ∀ r ∈ cat.objects, r.path ≠ path)
    (hclean : PutClean cat path) (m : CatMeta) : Tree (pblockCatalogPut io cat path m).1 := by
  rw [pblockCatalogPut, catInsertStep]
  split
  · exact h
  next hgate =>
  split
  · exact h
  · have hkept : Keyed.erase CatRow.path path cat.objects = cat.objects := by
      rw [Keyed.erase, filter_eq_self]
      intro r hr
      simpa using habsent r hr
    have hcons := h.cons hgate (hclean hgate) habsent m
    simp only [Keyed.replace, hkept]
    exact hcons

theorem pblockCatalogCreate_tree (h : Tree cat) (hclean : PutClean cat path) (m : CatMeta) :
    Tree (pblockCatalogCreate io cat path m).1 := by
  rw [pblockCatalogCreate, catInsertStep]
  split
  · exact h
  next hgate =>
  split
  · exact h
  cases hins : Keyed.insert CatRow.path ⟨path, parentOf 1024 path, m⟩ cat.objects with
  | none => exact h
  | some objects =>
    obtain ⟨habsent, rfl⟩ := Keyed.insert_eq_some.mp hins
    exact h.cons hgate (hclean hgate) habsent m

/-! ## Moving a subtree -/

/-- The rows with everything at or below `src` moved to `dst`. -/
structure Moved (src dst : PblockPath) (cat cat' : Catalog) : Prop where
  objects : cat'.objects = cat.objects.map fun r =>
    if AtOrBelow slash src r.path then r.moved src dst else r
  unique : Keyed.Unique CatRow.path cat'.objects
  some_row : ∃ r ∈ cat.objects, AtOrBelow slash src r.path
  named : (∀ x ∈ cat.xattrs, ∃ r ∈ cat.objects, r.path = x.path) →
    ∀ x ∈ cat'.xattrs, ∃ r ∈ cat'.objects, r.path = x.path

theorem below_iff_take {p : PblockPath} :
    Below slash src p ↔ p.take (src.length + 1) = src ++ [slash] := by
  rw [Below, prefix_iff_eq_take, length_append, length_singleton, eq_comm]

theorem mem_renameCollect {p : PblockPath} :
    p ∈ renameCollect io cat src ↔ (∃ r ∈ cat.objects, r.path = p) ∧ AtOrBelow slash src p := by
  rw [renameCollect, (io.order_perm _).mem_iff, mem_filter, mem_map, decide_eq_true_iff,
    AtOrBelow, below_iff_take]

theorem renameOne_ok {old : PblockPath} (h : renameOne src dst old cat = .ok cat') :
    Keyed.update CatRow.path (fun r => r.path = old) (CatRow.moved src dst) cat.objects =
        some cat'.objects ∧
      cat'.xattrs = cat.xattrs.map fun x => if x.path = old then x.moved src dst else x := by
  rw [renameOne] at h
  split at h
  · cases h
  split at h
  · cases h
  next objects hobjects =>
  split at h
  · cases h
  next xattrs hxattrs =>
  cases h
  refine ⟨hobjects, ?_⟩
  rw [(Keyed.update_eq_some hxattrs).1]
  simp

theorem renameOne_named {old : PblockPath} (h : renameOne src dst old cat = .ok cat')
    (hnamed : ∀ x ∈ cat.xattrs, ∃ r ∈ cat.objects, r.path = x.path) :
    ∀ x ∈ cat'.xattrs, ∃ r ∈ cat'.objects, r.path = x.path := by
  obtain ⟨hobjects, hxattrs⟩ := renameOne_ok h
  obtain ⟨hobjects', -⟩ := Keyed.update_eq_some hobjects
  rw [hobjects', hxattrs]
  intro x hx
  obtain ⟨y, hy, rfl⟩ := mem_map.mp hx
  obtain ⟨r, hr, hry⟩ := hnamed y hy
  refine ⟨_, mem_map_of_mem hr, ?_⟩
  by_cases hold : y.path = old
  · have hrold : r.path = old := hry.trans hold
    simp only [hold, hrold, decide_true, if_true]
    rw [CatRow.moved, XattrRow.moved, hrold, hold]
  · have hrold : r.path ≠ old := fun heq => hold (hry ▸ heq)
    simpa [hold, hrold] using hry

theorem renameEach_ok {pl : List PblockPath} (h : renameEach src dst pl cat = .ok cat') :
    Keyed.moveEach CatRow.path (CatRow.moved src dst) pl cat.objects = some cat'.objects ∧
      ((∀ x ∈ cat.xattrs, ∃ r ∈ cat.objects, r.path = x.path) →
        ∀ x ∈ cat'.xattrs, ∃ r ∈ cat'.objects, r.path = x.path) := by
  induction pl generalizing cat with
  | nil =>
    cases h
    exact ⟨rfl, fun hnamed => hnamed⟩
  | cons old pl ih =>
    rw [renameEach] at h
    cases hone : renameOne src dst old cat with
    | error e =>
      rw [hone] at h
      cases h
    | ok mid =>
      rw [hone] at h
      obtain ⟨hmove, hnamed⟩ := ih h
      refine ⟨?_, fun hbefore => hnamed (renameOne_named hone hbefore)⟩
      rw [Keyed.moveEach, (renameOne_ok hone).1]
      exact hmove

theorem exchangeMove_moved (hunique : Keyed.Unique CatRow.path cat.objects)
    (h : exchangeMove io cat src dst = .ok cat') : Moved src dst cat cat' := by
  rw [exchangeMove] at h
  split at h
  · cases h
  split at h
  · cases h
  next hsome =>
  obtain ⟨hmove, hnamed⟩ := renameEach_ok h
  have hnodup : (renameCollect io cat src).Nodup := by
    rw [renameCollect, (io.order_perm _).nodup_iff]
    exact hunique.filter _
  obtain ⟨hobjects, hunique'⟩ := Keyed.moveEach_eq_some hunique hnodup
    (fun p hp => (mem_renameCollect.mp hp).1) hmove
  refine ⟨?_, hunique', ?_, hnamed⟩
  · rw [hobjects]
    apply map_congr_left
    intro r hr
    have hiff : r.path ∈ renameCollect io cat src ↔ AtOrBelow slash src r.path := by
      rw [mem_renameCollect]
      exact and_iff_right ⟨r, hr, rfl⟩
    simp only [hiff]
  · obtain ⟨p, hp⟩ := exists_mem_of_ne_nil _ hsome
    obtain ⟨⟨r, hr, rfl⟩, hat⟩ := mem_renameCollect.mp hp
    exact ⟨r, hr, hat⟩

namespace Moved

variable (h : Moved src dst cat cat')

include h

theorem ne_of_kept {r s : CatRow} (hr : r ∈ cat.objects) (hs : s ∈ cat.objects)
    (hat : AtOrBelow slash src r.path) (hout : ¬AtOrBelow slash src s.path) :
    (r.moved src dst).path ≠ s.path := by
  intro heq
  have hunique := h.unique
  rw [h.objects, Keyed.Unique, map_map] at hunique
  have hrs : r = s := by
    apply inj_on_of_nodup_map hunique hr hs
    simp only [Function.comp_apply, if_pos hat, if_neg hout, heq]
  exact hout (hrs ▸ hat)

theorem mem_moved {r : CatRow} (hr : r ∈ cat.objects) (hat : AtOrBelow slash src r.path) :
    r.moved src dst ∈ cat'.objects := by
  rw [h.objects, mem_map]
  exact ⟨r, hr, if_pos hat⟩

theorem mem_kept {r : CatRow} (hr : r ∈ cat.objects) (hat : ¬AtOrBelow slash src r.path) :
    r ∈ cat'.objects := by
  rw [h.objects, mem_map]
  exact ⟨r, hr, if_neg hat⟩

theorem cases {r' : CatRow} (hr' : r' ∈ cat'.objects) :
    (∃ r ∈ cat.objects, AtOrBelow slash src r.path ∧ r' = r.moved src dst) ∨
      (r' ∈ cat.objects ∧ ¬AtOrBelow slash src r'.path) := by
  rw [h.objects, mem_map] at hr'
  obtain ⟨r, hr, heq⟩ := hr'
  split at heq
  · next hat => exact .inl ⟨r, hr, hat, heq.symm⟩
  · next hat =>
    subst heq
    exact .inr ⟨hr, hat⟩

/-- **A forest stays one** where the new place hangs from the root or from a row that
stays, and all that moves hangs together. -/
theorem forest (hforest : Forest cat) (hangs : Hangs cat src)
    (hdst : dst = [slash] ∨ dirOf dst = [slash] ∨
      ∃ d ∈ cat.objects, d.path = dirOf dst ∧ d.info.isDir = true ∧ ¬AtOrBelow slash src d.path) :
    Forest cat' := by
  refine ⟨h.unique, ?_, h.named hforest.named⟩
  intro r' hr' hroot
  obtain ⟨r, hr, hat, rfl⟩ | ⟨hr, hout⟩ := h.cases hr'
  · obtain heq | hbelow := hat
    · -- the top of what moves
      have hpath : (r.moved src dst).path = dst := by
        rw [CatRow.moved, heq]
        exact refront_self src dst
      rw [hpath] at hroot ⊢
      obtain hslash | hdir | ⟨d, hd, hdp, hdir, hstay⟩ := hdst
      · exact absurd hslash hroot
      · exact .inl hdir
      · exact .inr ⟨d, h.mem_kept hd hstay, hdp, hdir⟩
    · obtain ⟨d, hd, hparent, hdir⟩ := hangs r hr hbelow
      have hparent' : beforeLast slash (r.moved src dst).path = some (refront src dst d.path) :=
        beforeLast_refront hbelow hparent dst
      obtain ⟨d', hd', hdat⟩ := hbelow.atOrBelow_beforeLast
      obtain rfl := Option.some.inj (hparent.symm.trans hd')
      obtain hslash | ⟨-, hd''⟩ := dirOf_cases hroot
      · exact .inl hslash
      · refine .inr ⟨d.moved src dst, h.mem_moved hd hdat, ?_, hdir⟩
        exact Option.some.inj (hparent'.symm.trans hd'')
  · obtain hslash | ⟨d, hd, hdp, hdir⟩ := hforest.rooted r' hr hroot
    · exact .inl hslash
    · obtain hslash | ⟨-, hparent⟩ := dirOf_cases hroot
      · exact .inl hslash
      · refine .inr ⟨d, h.mem_kept hd ?_, hdp, hdir⟩
        intro hdat
        rw [← hdp] at hparent
        exact hout (.inr (hdat.below (below_beforeLast hparent)))

end Moved

end BrixCache
