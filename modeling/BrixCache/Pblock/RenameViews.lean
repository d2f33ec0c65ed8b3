import BrixCache.Pblock.RenameStore
import Mathlib.Data.List.MinMax

/-!
# What is seen after the rows have moved

The rows are moved by their text: what is at `src`, or is `src` with a slash and more
behind it, gets another front. That is the tree at `src` become the tree at `dst` just
when nothing is in the tree at `dst` that does not move, no attribute waits at a new
name, and where `/` is one of the two there is nothing else.
-/

namespace BrixCache

open Segments Function List

variable {io : CatIo} {cat : Catalog} {src dst p q : PblockPath}
  {read read' : CatMeta → Option Bytes} {view : PblockPath → Option PathView}

/-! ## Trees of names -/

theorem treeFront_of_ne (h : src ≠ [slash]) : treeFront src = src := if_neg h

theorem inTree_of_ne (h : src ≠ [slash]) : InTree src p ↔ Below slash src p := by
  simp [InTree, treeFront_of_ne h, h]

theorem InTree.ne (h : InTree src p) : p ≠ src := by
  rintro rfl
  by_cases hroot : p = [slash]
  · exact h.2 hroot hroot
  · exact absurd ((inTree_of_ne hroot).mp h).length (Nat.lt_irrefl _)

theorem inTree_of_below (h : Below slash src p) : InTree src p := by
  by_cases hroot : src = [slash]
  · subst hroot
    obtain ⟨t, rfl⟩ := below_iff.mp h
    exact ⟨below_iff.mpr ⟨slash :: t, rfl⟩, fun _ => by simp⟩
  · exact (inTree_of_ne hroot).mpr h

/-- A name in one of the two trees moves with the text of `src`, and as a text should. -/
def Straight (src dst p : PblockPath) : Prop :=
  p = src ∨ InTree src p ∨ InTree dst p →
    AtOrBelow slash src p ∧ (p = src ∨ (src ≠ [slash] ∧ dst ≠ [slash]))

namespace Straight

variable (h : Straight src dst p)

include h

theorem below (hbelow : Below slash src p) : src ≠ [slash] ∧ dst ≠ [slash] := by
  have hin := inTree_of_below hbelow
  obtain ⟨-, heq | hroots⟩ := h (.inr (.inl hin))
  · exact absurd heq hin.ne
  · exact hroots

theorem renamedView_moved (hat : AtOrBelow slash src p) :
    renamedView view src dst (refront src dst p) =
      (view p).map fun v => { v with parent := parentOf 1024 (refront src dst p) } := by
  obtain rfl | hbelow := hat
  · rw [refront_self, renamedView, if_pos rfl]
  obtain ⟨hsrc, hdst⟩ := h.below hbelow
  have hin : InTree dst (refront src dst p) := (inTree_of_ne hdst).mpr (refront_below hbelow dst)
  have hback : refront (treeFront dst) (treeFront src) (refront src dst p) = p := by
    rw [treeFront_of_ne hsrc, treeFront_of_ne hdst, refront_refront]
    exact refront_eq_self (.inr hbelow)
  rw [renamedView, if_neg hin.ne, if_pos hin]
  simp only [hback, inTree_of_below hbelow, if_true]

theorem renamedView_kept (hout : ¬AtOrBelow slash src p) (hne : p ≠ dst) :
    renamedView view src dst p = view p := by
  have hin : ¬InTree dst p := fun hin => hout (h (.inr (.inr hin))).1
  have hsrc : ¬(p = src ∨ InTree src p) := fun hsrc =>
    hout (h (hsrc.imp_right .inl)).1
  rw [renamedView, if_neg hne, if_neg hin, if_neg hsrc]

end Straight

/-- The name after the move. -/
def newPath (src dst p : PblockPath) : PblockPath :=
  if AtOrBelow slash src p then refront src dst p else p

/-- Nothing is seen where nothing comes to. -/
theorem renamedView_eq_none (hstraight : ∀ q, view q ≠ none → q ≠ dst → Straight src dst q)
    (hfree : InTree src dst → view dst = none) (hsrc : view src ≠ none) (hne : src ≠ dst)
    (hno : ∀ q, view q ≠ none → q ≠ dst → newPath src dst q ≠ p) :
    renamedView view src dst p = none := by
  have hdst : p ≠ dst := by
    rintro rfl
    have hat : AtOrBelow slash src src := .inl rfl
    refine hno src hsrc hne ?_
    rw [newPath, if_pos hat, refront_self]
  rw [renamedView, if_neg hdst]
  split
  · next hin =>
    dsimp only
    split
    · next hq =>
      rw [Option.map_eq_none_iff]
      by_contra hview
      have hqd : refront (treeFront dst) (treeFront src) p ≠ dst := by
        intro heq
        rw [heq] at hq hview
        exact hview (hfree hq)
      obtain ⟨hat, heq | ⟨hs, hd⟩⟩ := hstraight _ hview hqd (.inr (.inl hq))
      · exact hq.ne heq
      · refine hno _ hview hqd ?_
        rw [newPath, if_pos hat, treeFront_of_ne hs, treeFront_of_ne hd, refront_refront]
        exact refront_eq_self (.inr ((inTree_of_ne hd).mp hin))
    · rfl
  · split
    · rfl
    next hout =>
    by_contra hview
    refine hno p hview hdst (if_neg ?_)
    rintro (heq | hbelow)
    · exact hout (.inl heq)
    · exact hout (.inr (inTree_of_below hbelow))

/-! ## Lookups in the tables -/

theorem Catalog.viewAt_eq_none : cat.viewAt read p = none ↔ ∀ r ∈ cat.objects, r.path ≠ p := by
  rw [Catalog.viewAt, Option.map_eq_none_iff, Keyed.find_eq_none]

theorem CatKeys.viewAt_eq_some (hkeys : CatKeys cat) {r : CatRow} (hr : r ∈ cat.objects) :
    cat.viewAt read r.path = some (cat.viewOf read r) := by
  rw [Catalog.viewAt, (Keyed.find_eq_some hkeys.objects).mpr ⟨hr, rfl⟩, Option.map_some]

theorem CatKeys.xattrAt_eq_some (hkeys : CatKeys cat) {name value : Bytes} :
    cat.xattrAt p name = some value ↔ ∃ x ∈ cat.xattrs, x.key = (p, name) ∧ x.value = value := by
  rw [Catalog.xattrAt, Option.map_eq_some_iff]
  constructor
  · rintro ⟨x, hx, hvalue⟩
    obtain ⟨hmem, hkey⟩ := (Keyed.find_eq_some hkeys.xattrs).mp hx
    exact ⟨x, hmem, hkey, hvalue⟩
  · rintro ⟨x, hmem, hkey, hvalue⟩
    exact ⟨x, (Keyed.find_eq_some hkeys.xattrs).mpr ⟨hmem, hkey⟩, hvalue⟩

/-! ## After the move -/

/-- Everything at or below `src` moved. -/
def Catalog.moveAll (cat : Catalog) (io : CatIo) (src dst : PblockPath) : Catalog :=
  movedBy (renameCollect io cat src) src dst cat

def CatRow.landed (src dst : PblockPath) (r : CatRow) : CatRow :=
  if AtOrBelow slash src r.path then r.moved src dst else r

theorem CatRow.landed_path (r : CatRow) : (r.landed src dst).path = newPath src dst r.path := by
  rw [landed, newPath]
  split <;> rfl

theorem CatRow.landed_info (r : CatRow) : (r.landed src dst).info = r.info := by
  rw [landed]
  split <;> rfl

theorem mem_renameCollect_row {r : CatRow} (hr : r ∈ cat.objects) :
    r.path ∈ renameCollect io cat src ↔ AtOrBelow slash src r.path := by
  rw [mem_renameCollect]
  exact and_iff_right ⟨r, hr, rfl⟩

theorem Catalog.moveAll_objects : (cat.moveAll io src dst).objects =
    cat.objects.map (CatRow.landed src dst) := by
  apply map_congr_left
  intro r hr
  simp only [mem_renameCollect_row hr, CatRow.landed]

/-- No attribute that stays waits at the new name of a row. -/
def NoneWaits (cat : Catalog) (src dst p : PblockPath) : Prop :=
  AtOrBelow slash src p → ∀ x ∈ cat.xattrs, x.path = refront src dst p →
    (∃ r ∈ cat.objects, r.path = x.path) ∧ AtOrBelow slash src x.path

section Moved

variable (hmoved : CatKeys (cat.moveAll io src dst))

include hmoved

variable {r : CatRow}

theorem CatKeys.newPath_inj {s : CatRow} (hr : r ∈ cat.objects) (hs : s ∈ cat.objects)
    (h : newPath src dst r.path = newPath src dst s.path) : r = s := by
  have hunique := hmoved.objects
  rw [Catalog.moveAll_objects, Keyed.Unique, map_map] at hunique
  apply inj_on_of_nodup_map hunique hr hs
  simpa only [comp_apply, CatRow.landed_path] using h

/-- A moved row has its own attributes. -/
theorem CatKeys.xattrAt_landed (hr : r ∈ cat.objects)
    (hwaits : NoneWaits cat src dst r.path) (name : Bytes) :
    (cat.moveAll io src dst).xattrAt (newPath src dst r.path) name = cat.xattrAt r.path name := by
  rw [Catalog.xattrAt, Catalog.xattrAt, Catalog.moveAll, movedBy,
    Keyed.find_map (k := (r.path, name)), Option.map_map]
  · congr 1
    funext x
    rw [comp_apply]
    split <;> rfl
  intro x hx
  rw [XattrRow.key, XattrRow.key, Prod.mk.injEq, Prod.mk.injEq]
  by_cases hin : x.path ∈ renameCollect io cat src
  · obtain ⟨⟨s, hs, hsx⟩, hat⟩ := mem_renameCollect.mp hin
    simp only [hin, if_true]
    refine and_congr_left fun _ => ?_
    have hnew : (x.moved src dst).path = newPath src dst s.path := by
      rw [hsx, newPath, if_pos hat]
      rfl
    rw [hnew, ← hsx]
    exact ⟨fun h => congrArg CatRow.path (hmoved.newPath_inj hs hr h), fun h => by rw [h]⟩
  · simp only [hin, if_false]
    refine and_congr_left fun _ => ?_
    by_cases hat : AtOrBelow slash src r.path
    · rw [newPath, if_pos hat]
      constructor
      · intro heq
        exact absurd (mem_renameCollect.mpr (hwaits hat x hx heq)) hin
      · intro heq
        exact absurd (heq ▸ (mem_renameCollect_row hr).mpr hat) hin
    · rw [newPath, if_neg hat]

theorem CatKeys.viewAt_landed (hr : r ∈ cat.objects) (hwaits : NoneWaits cat src dst r.path)
    (hread : r.info.isDir = false → read' r.info = read r.info) :
    (cat.moveAll io src dst).viewAt read' (newPath src dst r.path) =
      some { cat.viewOf read r with parent := (r.landed src dst).parent } := by
  have hmem : r.landed src dst ∈ (cat.moveAll io src dst).objects := by
    rw [Catalog.moveAll_objects]
    exact mem_map_of_mem hr
  rw [← CatRow.landed_path, hmoved.viewAt_eq_some hmem, Catalog.viewOf, CatRow.landed_info,
    CatRow.landed_path, Catalog.viewOf]
  have hxattr : (cat.moveAll io src dst).xattrAt (newPath src dst r.path) = cat.xattrAt r.path :=
    funext (hmoved.xattrAt_landed hr hwaits)
  rw [hxattr]
  cases hdir : r.info.isDir with
  | true => simp
  | false => simp [hread hdir]

end Moved

theorem Catalog.moveAll_viewAt_eq_none : (cat.moveAll io src dst).viewAt read p = none ↔
    ∀ r ∈ cat.objects, newPath src dst r.path ≠ p := by
  rw [Catalog.viewAt_eq_none, Catalog.moveAll_objects, forall_mem_map]
  simp only [CatRow.landed_path]

/-! ## When that is the tree moved -/

/-- Nothing is in the way of what moves. -/
structure Clears (cat : Catalog) (src dst : PblockPath) : Prop where
  rows : ∀ r ∈ cat.objects, Straight src dst r.path
  xattrs : ∀ r ∈ cat.objects, NoneWaits cat src dst r.path

/-! ## Where something is -/

theorem no_climb {P : PblockPath → Prop} (h : ∀ r ∈ cat.objects, P r.path →
    ∃ s ∈ cat.objects, P s.path ∧ r.path.length < s.path.length) :
    ∀ r ∈ cat.objects, ¬P r.path := by
  classical
  intro r hr hP
  have hin : r ∈ cat.objects.filter fun r => P r.path := by
    rw [mem_filter]
    exact ⟨hr, decide_eq_true hP⟩
  cases hmax : (cat.objects.filter fun r => P r.path).argmax fun r => r.path.length with
  | none =>
    rw [argmax_eq_none.mp hmax] at hin
    cases hin
  | some m =>
    obtain ⟨hm, hPm⟩ := mem_filter.mp (argmax_mem hmax)
    obtain ⟨s, hs, hPs, hlt⟩ := h m hm (of_decide_eq_true hPm)
    have hle := le_of_mem_argmax (mem_filter.mpr ⟨hs, decide_eq_true hPs⟩) hmax
    exact absurd hlt (Nat.not_lt.mpr hle)

theorem renamedView_of_inTree (hin : InTree dst p) : renamedView view src dst p =
    if InTree src (refront (treeFront dst) (treeFront src) p) then
      (view (refront (treeFront dst) (treeFront src) p)).map fun v =>
        { v with parent := parentOf 1024 p }
    else none := by
  rw [renamedView, if_neg hin.ne, if_pos hin]

section Seen

variable (hview : ∀ p, (cat.moveAll io src dst).viewAt read' p = renamedView view src dst p)

include hview

theorem row_of_renamedView (h : renamedView view src dst p ≠ none) :
    ∃ r ∈ cat.objects, newPath src dst r.path = p := by
  by_contra hno
  rw [← hview, Catalog.moveAll_viewAt_eq_none.mpr fun r hr hrp => hno ⟨r, hr, hrp⟩] at h
  exact h rfl

theorem renamedView_of_row {r : CatRow} (hr : r ∈ cat.objects) :
    renamedView view src dst (newPath src dst r.path) ≠ none := by
  rw [← hview]
  exact fun hnone => Catalog.moveAll_viewAt_eq_none.mp hnone r hr rfl

theorem climb_src_root (hsrc : src = [slash]) (hd : dst ≠ [slash]) (habs : dst.head? = some slash)
    (hin : InTree [slash] p) (hp : view p ≠ none) :
    ∃ r ∈ cat.objects, InTree [slash] r.path ∧ p.length < r.path.length := by
  subst hsrc
  obtain ⟨t, rfl⟩ := below_iff.mp hin.1
  obtain ⟨d, rfl⟩ : ∃ d, dst = slash :: d := head?_eq_some_iff.mp habs
  have hpin : InTree (slash :: d) (slash :: d ++ slash :: t) :=
    (inTree_of_ne hd).mpr (below_iff.mpr ⟨t, rfl⟩)
  have hback : refront (treeFront (slash :: d)) (treeFront [slash]) (slash :: d ++ slash :: t) =
      slash :: t := by
    rw [treeFront_of_ne hd, refront_append]
    rfl
  have hsome : renamedView view [slash] (slash :: d) (slash :: d ++ slash :: t) ≠ none := by
    rw [renamedView_of_inTree hpin, hback]
    simpa [treeFront] using ⟨hin, hp⟩
  obtain ⟨r, hr, hrp⟩ := row_of_renamedView hview hsome
  refine ⟨r, hr, ?_⟩
  rw [newPath] at hrp
  split at hrp
  · next hat =>
    obtain heq | hbelow := hat
    · rw [heq, refront_self] at hrp
      simp at hrp
    · obtain ⟨u, hu⟩ := below_iff.mp hbelow
      rw [hu, refront_append] at hrp
      have hut := append_cancel_left hrp
      refine ⟨inTree_of_below hbelow, ?_⟩
      rw [hu, hut]
      simp [treeFront]
  · rw [hrp]
    refine ⟨⟨below_iff.mpr ⟨d ++ slash :: t, rfl⟩, fun _ => by simp⟩, ?_⟩
    simp only [treeFront, if_true, nil_append, length_append, length_cons]
    omega

end Seen

/-- Rows that are to move, with nothing at the new name, and what was seen before that was
made free. -/
structure Landing (io : CatIo) (cat : Catalog) (src dst : PblockPath)
    (read : CatMeta → Option Bytes) (view : PblockPath → Option PathView) : Prop where
  keys : CatKeys cat
  moved : CatKeys (cat.moveAll io src dst)
  source : ∃ r ∈ cat.objects, r.path = src
  gone : ∀ r ∈ cat.objects, r.path ≠ dst
  same : ∀ p, p ≠ dst → view p = cat.viewAt read p

namespace Landing

variable (h : Landing io cat src dst read view)

include h

theorem row_of_view (hview : view p ≠ none) (hne : p ≠ dst) : ∃ r ∈ cat.objects, r.path = p := by
  by_contra hno
  rw [h.same p hne] at hview
  exact hview (Catalog.viewAt_eq_none.mpr fun r hr hrp => hno ⟨r, hr, hrp⟩)

variable {r : CatRow}

theorem view_of_row (hr : r ∈ cat.objects) :
    view r.path = some (cat.viewOf read r) := by
  rw [h.same r.path (h.gone r hr), h.keys.viewAt_eq_some hr]

theorem renamedView_landed (hr : r ∈ cat.objects) (hs : Straight src dst r.path) :
    renamedView view src dst (newPath src dst r.path) =
      some { cat.viewOf read r with parent := (r.landed src dst).parent } := by
  have hview := h.view_of_row hr
  by_cases hat : AtOrBelow slash src r.path
  · rw [newPath, if_pos hat, hs.renamedView_moved hat, hview, CatRow.landed, if_pos hat]
    rfl
  · rw [newPath, if_neg hat, hs.renamedView_kept hat (h.gone r hr), hview, CatRow.landed,
      if_neg hat]
    rfl

theorem view_eq (hclears : Clears cat src dst) (hfree : InTree src dst → view dst = none)
    (hread : ∀ r ∈ cat.objects, r.info.isDir = false → read' r.info = read r.info)
    (p : PblockPath) : (cat.moveAll io src dst).viewAt read' p = renamedView view src dst p := by
  by_cases hrow : ∃ r ∈ cat.objects, newPath src dst r.path = p
  · obtain ⟨r, hr, rfl⟩ := hrow
    rw [h.moved.viewAt_landed hr (hclears.xattrs r hr) (hread r hr),
      h.renamedView_landed hr (hclears.rows r hr)]
  · have hnone : ∀ r ∈ cat.objects, newPath src dst r.path ≠ p := fun r hr hrp => hrow ⟨r, hr, hrp⟩
    obtain ⟨top, htop, rfl⟩ := h.source
    rw [Catalog.moveAll_viewAt_eq_none.mpr hnone]
    refine (renamedView_eq_none ?_ hfree ?_ (h.gone top htop) ?_).symm
    · intro q hview hq
      obtain ⟨r, hr, rfl⟩ := h.row_of_view hview hq
      exact hclears.rows r hr
    · rw [h.view_of_row htop]
      nofun
    · intro q hview hq
      obtain ⟨r, hr, rfl⟩ := h.row_of_view hview hq
      exact hnone r hr

variable (hview : ∀ p, (cat.moveAll io src dst).viewAt read' p = renamedView view src dst p)

include hview

theorem view_dst_of_ne_root (hs : src ≠ [slash]) (hd : dst ≠ [slash]) (hin : InTree src dst) :
    view dst = none := by
  by_contra hdst
  have hbelow := (inTree_of_ne hs).mp hin
  have hpin : InTree dst (refront src dst dst) :=
    (inTree_of_ne hd).mpr (refront_below hbelow dst)
  have hback : refront (treeFront dst) (treeFront src) (refront src dst dst) = dst := by
    rw [treeFront_of_ne hs, treeFront_of_ne hd, refront_refront, refront_eq_self (.inr hbelow)]
  have hsome : renamedView view src dst (refront src dst dst) ≠ none := by
    rw [renamedView_of_inTree hpin, hback, if_pos hin, ne_eq, Option.map_eq_none_iff]
    exact hdst
  obtain ⟨r, hr, hrp⟩ := row_of_renamedView hview hsome
  rw [newPath] at hrp
  split at hrp
  · next hat => exact h.gone r hr (refront_inj hat (.inr hbelow) hrp)
  · next hout =>
    refine hout (.inr ?_)
    rw [hrp]
    exact hbelow.trans (refront_below hbelow dst)

theorem straight_of_ne_root (hs : src ≠ [slash]) (hd : dst ≠ [slash])
    (hr : r ∈ cat.objects) : Straight src dst r.path := by
  intro hplace
  refine ⟨?_, .inr ⟨hs, hd⟩⟩
  by_contra hout
  obtain heq | hin | hin := hplace
  · exact hout (.inl heq)
  · exact hout (.inr ((inTree_of_ne hs).mp hin))
  have hbelow := (inTree_of_ne hd).mp hin
  have hsome := renamedView_of_row hview hr
  rw [newPath, if_neg hout, renamedView_of_inTree hin, treeFront_of_ne hs,
    treeFront_of_ne hd] at hsome
  have hq : InTree src (refront dst src r.path) := (inTree_of_ne hs).mpr (refront_below hbelow src)
  rw [if_pos hq, ne_eq, Option.map_eq_none_iff] at hsome
  have hqd : refront dst src r.path ≠ dst := by
    intro heq
    rw [heq] at hq hsome
    exact hsome (h.view_dst_of_ne_root hview hs hd hq)
  obtain ⟨s, hsmem, hsq⟩ := h.row_of_view hsome hqd
  have hsat : AtOrBelow slash src s.path := by
    rw [hsq]
    exact .inr ((inTree_of_ne hs).mp hq)
  have hmeet : newPath src dst s.path = newPath src dst r.path := by
    rw [newPath, if_pos hsat, newPath, if_neg hout, hsq, refront_refront]
    exact refront_eq_self (.inr hbelow)
  rw [h.moved.newPath_inj hsmem hr hmeet] at hsat
  exact hout hsat

theorem row_of_dst_root (hs : src ≠ [slash]) (hnil : src ≠ []) (hd : dst = [slash])
    (hin : InTree dst p) (hsome : renamedView view src dst p ≠ none) :
    ∃ s ∈ cat.objects, s.path = src ++ p ∧ Below slash src s.path := by
  subst hd
  obtain ⟨t, rfl⟩ := below_iff.mp hin.1
  have hfront : refront (treeFront [slash]) (treeFront src) (treeFront [slash] ++ slash :: t) =
      src ++ slash :: t := by
    rw [refront_append, treeFront_of_ne hs]
  have hbelow : Below slash src (src ++ slash :: t) := below_iff.mpr ⟨t, rfl⟩
  rw [renamedView_of_inTree hin, hfront, if_pos (inTree_of_below hbelow), ne_eq,
    Option.map_eq_none_iff] at hsome
  have hne : src ++ slash :: t ≠ [slash] := by
    intro heq
    have hlen := congrArg length heq
    have hpos := length_pos_of_ne_nil hnil
    simp only [length_append, length_cons, length_nil] at hlen
    omega
  obtain ⟨s, hsmem, hsp⟩ := h.row_of_view hsome hne
  exact ⟨s, hsmem, hsp, hsp ▸ hbelow⟩

theorem not_below_of_dst_root (hs : src ≠ [slash]) (hnil : src ≠ []) (hd : dst = [slash]) :
    ∀ r ∈ cat.objects, ¬Below slash src r.path := by
  apply no_climb
  intro r hr hbelow
  obtain ⟨t, ht⟩ := below_iff.mp hbelow
  have hat : AtOrBelow slash src r.path := .inr hbelow
  have hsome := renamedView_of_row hview hr
  rw [newPath, if_pos hat, ht, refront_append] at hsome
  have hin : InTree dst (dst ++ slash :: t) := inTree_of_below (below_iff.mpr ⟨t, rfl⟩)
  obtain ⟨s, hsmem, hsp, hsbelow⟩ := h.row_of_dst_root hview hs hnil hd hin hsome
  refine ⟨s, hsmem, hsbelow, ?_⟩
  rw [hsp, ht, hd]
  simp

theorem straight_of_dst_root (hs : src ≠ [slash]) (hnil : src ≠ []) (hd : dst = [slash])
    (hr : r ∈ cat.objects) : Straight src dst r.path := by
  have hnone := h.not_below_of_dst_root hview hs hnil hd
  have htop : r.path = src → AtOrBelow slash src r.path ∧
      (r.path = src ∨ (src ≠ [slash] ∧ dst ≠ [slash])) := fun heq => ⟨.inl heq, .inl heq⟩
  rintro (heq | hin | hin)
  · exact htop heq
  · exact absurd ((inTree_of_ne hs).mp hin) (hnone r hr)
  by_cases hat : AtOrBelow slash src r.path
  · exact htop (hat.resolve_right (hnone r hr))
  -- a row that stays below `/` was to be seen below the old name
  have hsome := renamedView_of_row hview hr
  rw [newPath, if_neg hat] at hsome
  obtain ⟨s, hsmem, -, hsbelow⟩ := h.row_of_dst_root hview hs hnil hd hin hsome
  exact absurd hsbelow (hnone s hsmem)

theorem not_inTree_of_src_root (hs : src = [slash]) (hd : dst ≠ [slash])
    (habs : dst.head? = some slash) : ∀ r ∈ cat.objects, ¬InTree [slash] r.path := by
  apply no_climb
  intro r hr hin
  refine climb_src_root hview hs hd habs hin ?_
  rw [h.view_of_row hr]
  nofun

theorem straight_of_src_root (hs : src = [slash]) (hd : dst ≠ [slash])
    (habs : dst.head? = some slash) (hr : r ∈ cat.objects) :
    Straight src dst r.path := by
  have hnone := h.not_inTree_of_src_root hview hs hd habs r hr
  subst hs
  rintro (heq | hin | hin)
  · exact ⟨.inl heq, .inl heq⟩
  · exact absurd hin hnone
  · obtain ⟨d, rfl⟩ : ∃ d, dst = slash :: d := head?_eq_some_iff.mp habs
    obtain ⟨t, ht⟩ := below_iff.mp ((inTree_of_ne hd).mp hin)
    refine absurd ⟨below_iff.mpr ⟨d ++ slash :: t, ?_⟩, fun _ => ?_⟩ hnone
    · rw [ht]
      rfl
    · rw [ht]
      simp

theorem straight_of_view (hne : src ≠ dst) (hnil : src ≠ [])
    (habs : src = [slash] → dst.head? = some slash) :
    (InTree src dst → view dst = none) ∧ ∀ r ∈ cat.objects, Straight src dst r.path := by
  by_cases hs : src = [slash]
  · have hd : dst ≠ [slash] := fun hd => hne (hs.trans hd.symm)
    refine ⟨fun hin => ?_, fun r hr =>
      h.straight_of_src_root hview hs hd (habs hs) hr⟩
    by_contra hdst
    obtain ⟨r, hr, hrin, -⟩ := climb_src_root hview hs hd (habs hs) (hs ▸ hin) hdst
    exact h.not_inTree_of_src_root hview hs hd (habs hs) r hr hrin
  by_cases hd : dst = [slash]
  · refine ⟨fun hin => ?_, fun r hr => h.straight_of_dst_root hview hs hnil hd hr⟩
    have hlen := ((inTree_of_ne hs).mp hin).length
    rw [hd, length_singleton] at hlen
    have hpos := length_pos_of_ne_nil hnil
    omega
  · exact ⟨h.view_dst_of_ne_root hview hs hd, fun r hr =>
      h.straight_of_ne_root hview hs hd hr⟩

theorem landed_of_view (hr : r ∈ cat.objects) (hstraight : Straight src dst r.path) :
    (cat.moveAll io src dst).xattrAt (newPath src dst r.path) = cat.xattrAt r.path ∧
      (r.info.isDir = false → read' r.info = read r.info) := by
  have hmem : r.landed src dst ∈ (cat.moveAll io src dst).objects := by
    rw [Catalog.moveAll_objects]
    exact mem_map_of_mem hr
  have hseen := hview (newPath src dst r.path)
  rw [h.renamedView_landed hr hstraight, ← CatRow.landed_path,
    h.moved.viewAt_eq_some hmem, Catalog.viewOf, Catalog.viewOf, CatRow.landed_info,
    CatRow.landed_path] at hseen
  simp only [Option.some.injEq, PathView.mk.injEq] at hseen
  obtain ⟨-, -, hxattr, hbytes⟩ := hseen
  refine ⟨hxattr, fun hfile => ?_⟩
  simpa [hfile] using hbytes

theorem noneWaits_of_view (hr : r ∈ cat.objects)
    (hstraight : Straight src dst r.path) : NoneWaits cat src dst r.path := by
  intro hat x hx hpath
  refine mem_renameCollect.mp (?_ : x.path ∈ renameCollect io cat src)
  by_contra hout
  obtain ⟨hxattr, -⟩ := h.landed_of_view hview hr hstraight
  have hkept : ∃ y ∈ (cat.moveAll io src dst).xattrs,
      y.key = (newPath src dst r.path, x.name) ∧ y.value = x.value := by
    refine ⟨x, ?_, ?_, rfl⟩
    · rw [Catalog.moveAll, movedBy, mem_map]
      exact ⟨x, hx, if_neg hout⟩
    · rw [newPath, if_pos hat, ← hpath]
      rfl
  rw [← h.moved.xattrAt_eq_some, hxattr, h.keys.xattrAt_eq_some] at hkept
  obtain ⟨y, hy, hkey, -⟩ := hkept
  obtain ⟨hypath, hyname⟩ := Prod.mk.inj hkey
  have hyin : y.path ∈ renameCollect io cat src := by
    rw [hypath]
    exact (mem_renameCollect_row hr).mpr hat
  -- the attribute the row had has come there as well
  have hunique := h.moved.xattrs
  rw [Catalog.moveAll, movedBy, Keyed.Unique, map_map] at hunique
  have hyx : y = x := by
    apply inj_on_of_nodup_map hunique hy hx
    rw [comp_apply, comp_apply, if_pos hyin, if_neg hout, XattrRow.key,
      XattrRow.key, hpath]
    simp [XattrRow.moved, hypath, hyname]
  exact hout (hyx ▸ hyin)

theorem clears_of_view (hne : src ≠ dst) (hnil : src ≠ [])
    (habs : src = [slash] → dst.head? = some slash) :
    Clears cat src dst ∧ (InTree src dst → view dst = none) ∧
      ∀ r ∈ cat.objects, r.info.isDir = false → read' r.info = read r.info := by
  obtain ⟨hfree, hstraight⟩ := h.straight_of_view hview hne hnil habs
  refine ⟨⟨hstraight, ?_⟩, hfree, ?_⟩
  · intro r hr
    exact h.noneWaits_of_view hview hr (hstraight r hr)
  · intro r hr
    exact (h.landed_of_view hview hr (hstraight r hr)).2

end Landing

end BrixCache
