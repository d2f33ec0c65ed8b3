import BrixCache.Cvmfs.CatalogRows

/-!
# The open catalogs of a publish

While a changeset is applied, the catalogs that are open and not dropped (`Ctx.Live`) are the mount
points that count. A nested row of one of them belongs to its region (`Catalog.Region`): it is a
mount point of that catalog and of no other, what is above it is there, and what it names is a
stored tree. No two open catalogs have one mount point, and a row and an open catalog for one mount
point have the same parent (`Ctx.Sound`). Opening the catalogs on the way to a path keeps that.
-/

namespace BrixCache.Publish

open Mounts Function List

variable {Q : Path → Catalog → Prop} {M : Set Path} {c c' : Catalog} {m p q : Path} {r : Row}
  {px px' : Ctx} {i j k : ℕ}

/-! ## The nested rows of an open catalog -/

/-- The nested rows of a catalog at `m`, where the mount points `M` are open -/
structure Catalog.Region (Q : Path → Catalog → Prop) (M : Set Path) (m : Path) (c : Catalog) :
    Prop where
  isOver : ∀ n ∈ c.nested, Over M m n.1
  opened : ∀ n ∈ c.nested, ∀ q ∈ M, Under n.1 q → n.1 ∈ M
  row : ∀ n ∈ c.nested, ∃ r, c.row n.1 = some r ∧ r.isMount = true
  between : ∀ n ∈ c.nested, ∀ d, Under m d → Under d n.1 → (c.row d).isSome = true
  apart : ∀ n ∈ c.nested, ∀ n' ∈ c.nested, ¬Under n'.1 n.1
  stored : ∀ n ∈ c.nested, EachCatalog (fun m c => c.Layer m ∧ Q m c) n.1 n.2

theorem row_delete_of_ne (h : q ≠ p) : (c.delete p).row q = c.row q :=
  Keyed.find_erase_of_ne h

theorem deleteSubtreeRec_frame {levels : ℕ} (h : Catalog.deleteSubtreeRec levels p c = some c') :
    c'.nested = c.nested ∧ ∀ q, ¬p <+: q → c'.row q = c.row q := by
  induction levels generalizing p c c' with
  | zero => cases h
  | succ levels ih =>
    have hfold : ∀ (names : List Bytes) (c c' : Catalog),
        names.foldlM (fun c name => Catalog.deleteSubtreeRec levels (p ++ [name]) c) c = some c' →
        c'.nested = c.nested ∧ ∀ q, ¬p <+: q → c'.row q = c.row q := by
      intro names
      induction names with
      | nil =>
        intro c c' h
        cases h
        exact ⟨rfl, fun _ _ => rfl⟩
      | cons name names ihn =>
        intro c c' h
        rw [foldlM_cons] at h
        obtain ⟨mid, hmid, hrest⟩ := Option.bind_eq_some_iff.mp h
        obtain ⟨hnested, hrow⟩ := ih hmid
        obtain ⟨hnested', hrow'⟩ := ihn mid c' hrest
        refine ⟨hnested'.trans hnested, fun q hq => (hrow' q hq).trans (hrow q fun hpre => hq ?_)⟩
        exact (prefix_append p [name]).trans hpre
    rw [Catalog.deleteSubtreeRec, Option.map_eq_some_iff] at h
    obtain ⟨mid, hmid, rfl⟩ := h
    obtain ⟨hnested, hrow⟩ := hfold _ _ _ hmid
    refine ⟨hnested, fun q hq => ?_⟩
    rw [row_delete_of_ne fun he : q = p => hq (he ▸ prefix_refl _), hrow q hq]

/-- SQLite's pattern for a path selects the nested rows of a catalog below it. -/
def Catalog.Globbed (glob : Path → Path → Bool) (p : Path) (c : Catalog) : Prop :=
  ∀ n ∈ c.nested, Under p n.1 → glob p n.1 = true

theorem deleteSubtree_frame {glob : Path → Path → Bool} (hg : c.Globbed glob p)
    (h : c.deleteSubtree glob p = some c') :
    (∀ n ∈ c'.nested, n ∈ c.nested ∧ ¬p <+: n.1) ∧ ∀ q, ¬p <+: q → c'.row q = c.row q := by
  obtain ⟨hnested, hrow⟩ := deleteSubtreeRec_frame h
  refine ⟨fun n hn => ?_, hrow⟩
  rw [hnested] at hn
  simp only [mem_filter, not_or, decide_eq_true_eq] at hn
  refine ⟨hn.1, fun hpre => ?_⟩
  by_cases he : p = n.1
  · exact hn.2.1 he.symm
  · exact hn.2.2 (hg n hn.1 ⟨hpre, he⟩)

namespace Catalog.Region

theorem shrink (h : c.Region Q M m) (hn : ∀ n ∈ c'.nested, n ∈ c.nested)
    (hrow : ∀ n ∈ c'.nested, ∀ q, q <+: n.1 → c'.row q = c.row q) : c'.Region Q M m where
  isOver := fun n hn' => h.isOver n (hn n hn')
  opened := fun n hn' => h.opened n (hn n hn')
  row := fun n hn' => by
    rw [hrow n hn' n.1 (prefix_refl _)]
    exact h.row n (hn n hn')
  between := fun n hn' d hm hd => by
    rw [hrow n hn' d hd.1]
    exact h.between n (hn n hn') d hm hd
  apart := fun n hn' n' hn'' => h.apart n (hn n hn') n' (hn n' hn'')
  stored := fun n hn' => h.stored n (hn n hn')

theorem deleteSubtree {glob : Path → Path → Bool} (h : c.Region Q M m) (hg : c.Globbed glob p)
    (hdel : c.deleteSubtree glob p = some c') : c'.Region Q M m := by
  obtain ⟨hn, hrow⟩ := deleteSubtree_frame hg hdel
  exact h.shrink (fun n hn' => (hn n hn').1) fun n hn' q hq =>
    hrow q fun hpre => (hn n hn').2 (hpre.trans hq)

theorem upsert (h : c.Region Q M m) (hr : ∀ n ∈ c.nested, n.1 = r.path → r.isMount = true) :
    (c.upsert r).Region Q M m where
  isOver := h.isOver
  opened := h.opened
  row := fun n hn => by
    rw [row_upsert]
    split
    · next he => exact ⟨r.stored, rfl, hr n hn he⟩
    · exact h.row n hn
  between := fun n hn d hm hd => by
    rw [row_upsert]
    split
    · rfl
    · exact h.between n hn d hm hd
  apart := h.apart
  stored := h.stored

theorem insert (h : c.Region Q M m) (hcut : p <+: m ∨ ∀ n ∈ c.nested, ¬Under p n.1)
    (habove : ∀ n ∈ c.nested, Under n.1 p → n.1 ∈ M) : c.Region Q (Insert.insert p M) m where
  isOver := fun n hn => by
    rcases hcut with hpre | hnot
    · exact over_insert_of_prefix (h.isOver n hn) hpre
    · exact (over_insert_of_not_under (hnot n hn)).mpr (h.isOver n hn)
  opened := fun n hn q hq hu => by
    refine Set.mem_insert_of_mem _ ?_
    rcases Set.mem_insert_iff.mp hq with rfl | hq
    · exact habove n hn hu
    · exact h.opened n hn q hq hu
  row := h.row
  between := h.between
  apart := h.apart
  stored := h.stored

theorem clear (h : c.Region Q M m) (hm : ¬p <+: m) : c.Region Q (clear M p) m where
  isOver := fun n hn => by
    have hover := h.isOver n hn
    exact ⟨hover.under, hover.mount.imp id fun hmem => ⟨hmem, hm⟩,
      fun q hq hu => hover.nearest q hq.1 hu⟩
  opened := fun n hn q hq hu =>
    ⟨h.opened n hn q hq.1 hu, fun hpre => hq.2 (hpre.trans hu.1)⟩
  row := h.row
  between := h.between
  apart := h.apart
  stored := h.stored

theorem of_stored (h : EachCatalog (fun m c => c.Layer m ∧ Q m c) m c) (hm : m = [] ∨ m ∈ M)
    (hfree : ∀ q ∈ M, ¬Under m q) : c.Region Q M m := by
  obtain ⟨hlayer, -⟩ := h.here
  refine ⟨fun n hn => ?_, fun n hn q hq hu => ?_, fun n hn => ?_, fun n hn d hd hu => ?_,
    fun n hn n' hn' => hlayer.apart hn hn', h.children⟩
  · refine ⟨(hlayer.nested n hn).1, hm, fun q hq hu => ?_⟩
    rcases comparable hu.1 (hlayer.nested n hn).1.1 with hpre | hlt
    · exact hpre
    · exact absurd hlt (hfree q hq)
  · exact absurd ((hlayer.nested n hn).1.mono hu.1) (hfree q hq)
  · obtain ⟨-, r, hr, hpath, hmount⟩ := hlayer.nested n hn
    exact ⟨r, hlayer.keys.row.mpr ⟨hr, hpath⟩, hmount⟩
  · obtain ⟨-, r, hr, hpath, -⟩ := hlayer.nested n hn
    obtain ⟨d', hd', hpath', -, -⟩ := hlayer.between hr hd (hpath ▸ hu)
    rw [hlayer.keys.row.mpr ⟨hd', hpath'⟩]
    rfl

end Catalog.Region

/-! ## The open catalogs -/

namespace Ctx

/-- The catalog is open and not dropped. -/
def Live (px : Ctx) (i : ℕ) : Prop := i < px.count ∧ (px.cat i).dropped = false

/-- The mount points of the open catalogs -/
def mounts (px : Ctx) : Set Path := {m | ∃ i, px.Live i ∧ (px.cat i).mount = m}

/-- What holds of the open catalogs while changes are applied -/
structure Sound (Q : Path → Catalog → Prop) (px : Ctx) : Prop where
  root : px.Live 0 ∧ (px.cat 0).mount = []
  distinct : ∀ i j, px.Live i → px.Live j → (px.cat i).mount = (px.cat j).mount → i = j
  region : ∀ i, px.Live i → (px.cat i).db.Region Q px.mounts (px.cat i).mount
  owner : ∀ i, px.Live i → ∀ n ∈ (px.cat i).db.nested, ∀ j, px.Live j → (px.cat j).mount = n.1 →
    (px.cat j).parent = some i
  tot : ∀ i, (px.cat i).tot = none

@[simp] theorem modify_cat_self (px : Ctx) (k : ℕ) (f : OpenCat → OpenCat) :
    (px.modify k f).cat k = f (px.cat k) := update_self ..

theorem modify_cat_of_ne (f : OpenCat → OpenCat) (h : i ≠ k) :
    (px.modify k f).cat i = px.cat i := update_of_ne h ..

@[simp] theorem modify_count (px : Ctx) (k : ℕ) (f : OpenCat → OpenCat) :
    (px.modify k f).count = px.count := rfl

@[simp] theorem register_cat_self (px : Ctx) (cat : OpenCat) :
    (px.register cat).cat px.count = cat := update_self ..

theorem register_cat_of_lt (cat : OpenCat) (h : i < px.count) :
    (px.register cat).cat i = px.cat i := update_of_ne (Nat.ne_of_lt h) ..

@[simp] theorem register_count (px : Ctx) (cat : OpenCat) :
    (px.register cat).count = px.count + 1 := rfl

theorem mem_mounts_of_live (h : px.Live i) : (px.cat i).mount ∈ px.mounts := ⟨i, h, rfl⟩

theorem pubCatFind_eq_some (h : pubCatFind px m = some i) :
    px.Live i ∧ (px.cat i).mount = m := by
  have htest := find?_some h
  have hmem := mem_of_find?_eq_some h
  simp only [Bool.and_eq_true, Bool.not_eq_true', decide_eq_true_eq] at htest
  exact ⟨⟨mem_range.mp hmem, htest.1⟩, htest.2⟩

theorem pubCatFind_eq_none : pubCatFind px m = none ↔ m ∉ px.mounts := by
  rw [pubCatFind, find, find?_eq_none]
  constructor
  · rintro h ⟨i, hi, hm⟩
    exact h i (mem_range.mpr hi.1) (by simp [hi.2, hm])
  · intro h i hi htest
    simp only [Bool.and_eq_true, Bool.not_eq_true', decide_eq_true_eq] at htest
    exact h ⟨i, ⟨mem_range.mp hi, htest.1⟩, htest.2⟩

theorem live_register {cat : OpenCat} (hd : cat.dropped = false) :
    (px.register cat).Live i ↔ px.Live i ∨ i = px.count := by
  rw [Live, Live, register_count, Nat.lt_succ_iff_lt_or_eq]
  constructor
  · rintro ⟨hlt | he, hdrop⟩
    · rw [register_cat_of_lt cat hlt] at hdrop
      exact .inl ⟨hlt, hdrop⟩
    · exact .inr he
  · rintro (⟨hlt, hdrop⟩ | rfl)
    · rw [register_cat_of_lt cat hlt]
      exact ⟨.inl hlt, hdrop⟩
    · rw [register_cat_self]
      exact ⟨.inr rfl, hd⟩

theorem mounts_register {cat : OpenCat} (hd : cat.dropped = false) :
    (px.register cat).mounts = insert cat.mount px.mounts := by
  ext m
  rw [Set.mem_insert_iff]
  constructor
  · rintro ⟨i, hi, rfl⟩
    rcases (live_register hd).mp hi with hi | rfl
    · rw [register_cat_of_lt cat hi.1]
      exact .inr (mem_mounts_of_live hi)
    · rw [register_cat_self]
      exact .inl rfl
  · rintro (rfl | ⟨i, hi, rfl⟩)
    · refine ⟨px.count, (live_register hd).mpr (.inr rfl), ?_⟩
      rw [register_cat_self]
    · refine ⟨i, (live_register hd).mpr (.inl hi), ?_⟩
      rw [register_cat_of_lt cat hi.1]

/-- A change of a catalog that keeps its place among the open ones -/
structure Keeps (f : OpenCat → OpenCat) (cat : OpenCat) : Prop where
  mount : (f cat).mount = cat.mount
  parent : (f cat).parent = cat.parent
  dropped : (f cat).dropped = cat.dropped
  tot : (f cat).tot = cat.tot

theorem keeps_wrote (db : Catalog) (cat : OpenCat) : Keeps (fun c => c.wrote db) cat :=
  ⟨rfl, rfl, rfl, rfl⟩

section Modify

variable {f : OpenCat → OpenCat} (hf : Keeps f (px.cat k))

include hf

theorem modify_mount (i : ℕ) : ((px.modify k f).cat i).mount = (px.cat i).mount := by
  by_cases h : i = k
  · rw [h, modify_cat_self, hf.mount]
  · rw [modify_cat_of_ne f h]

theorem modify_parent (i : ℕ) : ((px.modify k f).cat i).parent = (px.cat i).parent := by
  by_cases h : i = k
  · rw [h, modify_cat_self, hf.parent]
  · rw [modify_cat_of_ne f h]

theorem live_modify : (px.modify k f).Live i ↔ px.Live i := by
  rw [Live, Live, modify_count]
  by_cases h : i = k
  · rw [h, modify_cat_self, hf.dropped]
  · rw [modify_cat_of_ne f h]

theorem mounts_modify : (px.modify k f).mounts = px.mounts := by
  ext m
  refine exists_congr fun i => ?_
  rw [live_modify hf, modify_mount hf]

/-- A change of one catalog inside its own region -/
theorem Sound.modify (hs : px.Sound Q)
    (hregion : px.Live k → (f (px.cat k)).db.Region Q px.mounts (px.cat k).mount)
    (howner : px.Live k → ∀ n ∈ (f (px.cat k)).db.nested, ∀ j, px.Live j →
      (px.cat j).mount = n.1 → (px.cat j).parent = some k) :
    (px.modify k f).Sound Q where
  root := by
    rw [live_modify hf, modify_mount hf]
    exact hs.root
  distinct := fun i j hi hj => by
    rw [modify_mount hf, modify_mount hf]
    exact hs.distinct i j ((live_modify hf).mp hi) ((live_modify hf).mp hj)
  region := fun i hi => by
    have hi := (live_modify hf).mp hi
    rw [mounts_modify hf, modify_mount hf]
    by_cases h : i = k
    · rw [h, modify_cat_self]
      exact hregion (h ▸ hi)
    · rw [modify_cat_of_ne f h]
      exact hs.region i hi
  owner := fun i hi n hn j hj => by
    have hi := (live_modify hf).mp hi
    rw [modify_mount hf, modify_parent hf]
    by_cases h : i = k
    · rw [h, modify_cat_self] at hn
      rw [h] at hi ⊢
      exact howner hi n hn j ((live_modify hf).mp hj)
    · rw [modify_cat_of_ne f h] at hn
      exact hs.owner i hi n hn j ((live_modify hf).mp hj)
  tot := fun i => by
    by_cases h : i = k
    · rw [h, modify_cat_self, hf.tot]
      exact hs.tot k
    · rw [modify_cat_of_ne f h]
      exact hs.tot i

theorem Sound.shrink (hs : px.Sound Q)
    (hregion : px.Live k → (f (px.cat k)).db.Region Q px.mounts (px.cat k).mount)
    (hsub : ∀ n ∈ (f (px.cat k)).db.nested, n ∈ (px.cat k).db.nested) :
    (px.modify k f).Sound Q :=
  hs.modify hf hregion fun hk n hn => hs.owner k hk n (hsub n hn)

end Modify

end Ctx

end BrixCache.Publish
