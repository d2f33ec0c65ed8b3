import BrixCache.Cvmfs.PublishApply

/-!
# The open catalogs while rules are applied

The walk over the directories of the root catalog reads the pristine copy, and each directory is
visited before anything at or below it has changed (`Ctx.Ready`). What a visit changes is at and
below the directory (`Ctx.Changed`), so that the directories beside it are still to be visited as
they were. A split takes the nested rows below a directory into a fresh catalog, a dissolved
catalog gives its own to its parent, and both keep what holds of the open catalogs.
-/

namespace BrixCache.Publish

open Mounts List

variable {Q : Path → Catalog → Prop} {env : Env} {dt : Dirtab} {c dst rd : Catalog}
  {m p q sub path : Path} {r : Row} {px px' px'' : Ctx} {i j k k' : ℕ} {cat : OpenCat}

/-! ## Moving nested rows -/

theorem foldl_setNested (ns : List (Path × Catalog))
    (hns : ∀ x ∈ ns, ∀ y ∈ ns, x.1 = y.1 → x = y) (dst : Catalog) :
    (ns.foldl (fun dst n => dst.setNested n.1 n.2) dst).rows = dst.rows ∧
      (ns.foldl (fun dst n => dst.setNested n.1 n.2) dst).chunks = dst.chunks ∧
      ∀ n, n ∈ (ns.foldl (fun dst n => dst.setNested n.1 n.2) dst).nested ↔
        n ∈ ns ∨ n ∈ dst.nested ∧ ∀ x ∈ ns, x.1 ≠ n.1 := by
  induction ns generalizing dst with
  | nil => simp
  | cons x ns ih =>
    obtain ⟨hrows, hchunks, hnested⟩ := ih (fun y hy z hz => hns y (mem_cons_of_mem _ hy) z
      (mem_cons_of_mem _ hz)) (dst.setNested x.1 x.2)
    rw [foldl_cons]
    refine ⟨hrows, hchunks, fun n => ?_⟩
    rw [hnested]
    have hset : n ∈ (dst.setNested x.1 x.2).nested ↔ n = x ∨ n ∈ dst.nested ∧ n.1 ≠ x.1 :=
      Keyed.mem_replace
    rw [hset, mem_cons]
    constructor
    · rintro (hn | ⟨rfl | ⟨hn, hne⟩, hall⟩)
      · exact .inl (.inr hn)
      · exact .inl (.inl rfl)
      · refine .inr ⟨hn, fun y hy => ?_⟩
        rcases mem_cons.mp hy with rfl | hy
        · exact hne.symm
        · exact hall y hy
    · rintro ((rfl | hn) | ⟨hn, hall⟩)
      · by_cases hin : n ∈ ns
        · exact .inl hin
        · refine .inr ⟨.inl rfl, fun y hy he => hin ?_⟩
          rw [← hns y (mem_cons_of_mem _ hy) n mem_cons_self he]
          exact hy
      · exact .inl hn
      · exact .inr ⟨.inr ⟨hn, (hall x mem_cons_self).symm⟩, fun y hy =>
          hall y (mem_cons_of_mem _ hy)⟩

theorem dtMoveNested_spec (src dst : Catalog) (p : Path)
    (hsrc : ∀ x ∈ src.nested, ∀ y ∈ src.nested, Under p x.1 → x.1 = y.1 → x = y)
    (hp : p = [] → ∀ x ∈ src.nested, x.1 ≠ []) :
    (dtMoveNested src dst p).rows = dst.rows ∧ (dtMoveNested src dst p).chunks = dst.chunks ∧
      ∀ n, n ∈ (dtMoveNested src dst p).nested ↔ n ∈ src.nested ∧ Under p n.1 ∨
        n ∈ dst.nested ∧ ∀ x ∈ src.nested, Under p x.1 → x.1 ≠ n.1 := by
  have hmem : ∀ n, n ∈ src.nested.filter (fun n => decide (p <+: n.1 ∧ (p = [] ∨ p ≠ n.1))) ↔
      n ∈ src.nested ∧ Under p n.1 := fun n => by
    rw [mem_filter, decide_eq_true_eq]
    refine and_congr_right fun hn => and_congr_right fun _ => ⟨?_, .inr⟩
    rintro (hnil | hne)
    · rw [hnil]
      exact fun he => hp hnil n hn he.symm
    · exact hne
  obtain ⟨hrows, hchunks, hnested⟩ := foldl_setNested (src.nested.filter
    fun n => decide (p <+: n.1 ∧ (p = [] ∨ p ≠ n.1))) (fun x hx y hy he =>
      hsrc x ((hmem x).mp hx).1 y ((hmem y).mp hy).1 ((hmem x).mp hx).2 he) dst
  refine ⟨hrows, hchunks, fun n => ?_⟩
  rw [dtMoveNested, hnested, hmem]
  simp only [hmem, and_imp]

namespace Ctx

/-! ## A visit -/

/-- Nothing is changed but at the paths of a set. -/
structure Changed (S : Path → Prop) (px px' : Ctx) : Prop where
  count : px.count ≤ px'.count
  mount : ∀ i, i < px.count → (px'.cat i).mount = (px.cat i).mount
  dropped : ∀ i, i < px.count → (px'.cat i).dropped = (px.cat i).dropped
  orig : ∀ i, i < px.count → (px'.cat i).origDb = (px.cat i).origDb
  nested : ∀ i, i < px.count → ∀ n ∈ (px'.cat i).db.nested, S n.1 ∨ n ∈ (px.cat i).db.nested
  mounts : ∀ q ∈ px'.mounts, q ∈ px.mounts ∨ S q

theorem Changed.refl (S : Path → Prop) (px : Ctx) : Changed S px px :=
  ⟨Nat.le_refl _, fun _ _ => rfl, fun _ _ => rfl, fun _ _ => rfl, fun _ _ _ hn => .inr hn,
    fun _ hq => .inl hq⟩

theorem Changed.imp {S T : Path → Prop} (h : Changed S px px') (hST : ∀ q, S q → T q) :
    Changed T px px' :=
  ⟨h.count, h.mount, h.dropped, h.orig, fun i hi n hn => (h.nested i hi n hn).imp (hST _) id,
    fun q hq => (h.mounts q hq).imp id (hST q)⟩

theorem Changed.trans {S : Path → Prop} (h : Changed S px px') (h' : Changed S px' px'') :
    Changed S px px'' where
  count := h.count.trans h'.count
  mount := fun i hi => (h'.mount i (Nat.lt_of_lt_of_le hi h.count)).trans (h.mount i hi)
  dropped := fun i hi => (h'.dropped i (Nat.lt_of_lt_of_le hi h.count)).trans (h.dropped i hi)
  orig := fun i hi => (h'.orig i (Nat.lt_of_lt_of_le hi h.count)).trans (h.orig i hi)
  nested := fun i hi n hn => by
    rcases h'.nested i (Nat.lt_of_lt_of_le hi h.count) n hn with hs | hn
    · exact .inl hs
    · exact h.nested i hi n hn
  mounts := fun q hq => by
    rcases h'.mounts q hq with hq | hs
    · exact h.mounts q hq
    · exact .inr hs

theorem Changed.live {S : Path → Prop} (h : Changed S px px') (hi : px.Live i) : px'.Live i :=
  ⟨Nat.lt_of_lt_of_le hi.1 h.count, (h.dropped i hi.1).trans hi.2⟩

/-- A directory of the pristine copy `rd` is to be visited, in the catalog `k`. -/
structure Ready (rd : Catalog) (px : Ctx) (k : ℕ) (sub : Path) : Prop extends Owns px k sub where
  free : ∀ q ∈ px.mounts, ¬sub <+: q
  nested : ∀ n ∈ (px.cat k).db.nested, sub <+: n.1 → n ∈ rd.nested
  orig : ∀ o, (px.cat k).origDb = some o → o = rd

theorem Ready.of_changed {S : Path → Prop} (h : Ready rd px k sub) (hc : Changed S px px')
    (hS : ∀ q, S q → ¬q <+: sub ∧ ¬sub <+: q) : Ready rd px' k sub where
  live := hc.live h.live
  isOver := by
    rw [hc.mount k h.live.1]
    refine ⟨h.isOver.under, .inr ?_, fun q hq hu => ?_⟩
    · rw [← hc.mount k h.live.1]
      exact mem_mounts_of_live (hc.live h.live)
    · rcases hc.mounts q hq with hq | hs
      · exact h.isOver.nearest q hq hu
      · exact absurd hu.1 (hS q hs).1
  above := fun n hn hu => by
    rcases hc.nested k h.live.1 n hn with hs | hn
    · exact (hS _ hs).1 hu.1
    · exact h.above n hn hu
  free := fun q hq hpre => by
    rcases hc.mounts q hq with hq | hs
    · exact h.free q hq hpre
    · exact (hS q hs).2 hpre
  nested := fun n hn hpre => by
    rcases hc.nested k h.live.1 n hn with hs | hn
    · exact absurd hpre (hS _ hs).2
    · exact h.nested n hn hpre
  orig := fun o ho => h.orig o (by rw [← hc.orig k h.live.1, ho])

theorem Ready.child (h : Ready rd px k sub) (hsub : ∀ n ∈ rd.nested, n.1 ≠ sub)
    (name : Bytes) : Ready rd px k (sub ++ [name]) where
  live := h.live
  isOver := over_snoc_of_not_mem (fun hmem => h.free sub hmem (prefix_refl _)) h.isOver
  above := fun n hn hu => by
    have hpre := under_snoc_iff.mp hu
    by_cases he : n.1 = sub
    · exact hsub n (h.nested n hn (he ▸ prefix_refl _)) he
    · exact h.above n hn ⟨hpre, he⟩
  free := fun q hq hpre => h.free q hq ((prefix_append _ _).trans hpre)
  nested := fun n hn hpre => h.nested n hn ((prefix_append _ _).trans hpre)
  orig := h.orig

/-! ## A mount point -/

theorem nestedAt_mem (h : (px.cat k).db.nestedAt p = some c) : (p, c) ∈ (px.cat k).db.nested := by
  obtain ⟨⟨q, c'⟩, hfind, rfl⟩ := Option.map_eq_some_iff.mp h
  have hq := find?_some hfind
  simp only [decide_eq_true_eq] at hq
  rw [← hq]
  exact mem_of_find?_eq_some hfind

/-- What becomes of a mount point: it stays, with nothing opened or its catalog looked into, or its
catalog is opened and dissolved. -/
theorem dtMount_cases (h : dtMount env dt px k sub = some px') : px' = px ∨
    ∃ c, (sub, c) ∈ (px.cat k).db.nested ∧ (px' = pubCatMaterialize px sub (some k) c ∨
      dtDissolve (pubCatMaterialize px sub (some k) c) k sub px.count = some px') := by
  obtain ⟨fate, hfate, h⟩ := Option.bind_eq_some_iff.mp h
  have hopen : ∀ {px₁ : Ctx} {child : ℕ}, dtOpenChild px k sub = some (px₁, child) →
      ∃ c, (sub, c) ∈ (px.cat k).db.nested ∧ px₁ = pubCatMaterialize px sub (some k) c ∧
        child = px.count := fun {px₁ child} ho => by
    obtain ⟨c, hc, he⟩ := Option.map_eq_some_iff.mp ho
    obtain ⟨rfl, rfl⟩ := Prod.mk.inj he
    exact ⟨c, nestedAt_mem hc, rfl, rfl⟩
  rw [dtMountStays] at hfate
  split at hfate
  · cases hfate
    exact .inl (Option.some.inj h).symm
  · split at hfate
    · cases hfate
      exact .inl (Option.some.inj h).symm
    · split at hfate
      · cases hfate
        obtain ⟨⟨px₁, child⟩, ho, h⟩ := Option.bind_eq_some_iff.mp h
        obtain ⟨c, hc, rfl, rfl⟩ := hopen ho
        exact .inr ⟨c, hc, .inr h⟩
      · split at hfate
        · cases hfate
          exact .inl (Option.some.inj h).symm
        · obtain ⟨⟨px₁, child⟩, ho, hfate⟩ := Option.bind_eq_some_iff.mp hfate
          obtain ⟨c, hc, rfl, rfl⟩ := hopen ho
          dsimp only at hfate
          split at hfate
          · cases hfate
          · split at hfate
            · cases hfate
              exact .inr ⟨c, hc, .inl (Option.some.inj h).symm⟩
            · cases hfate
              exact .inr ⟨c, hc, .inr h⟩

theorem live_register_dropped (hd : cat.dropped = true) :
    (px.register cat).Live i ↔ px.Live i := by
  rw [Live, Live, register_count, Nat.lt_succ_iff_lt_or_eq]
  constructor
  · rintro ⟨hlt | rfl, hdrop⟩
    · rw [register_cat_of_lt cat hlt] at hdrop
      exact ⟨hlt, hdrop⟩
    · rw [register_cat_self, hd] at hdrop
      cases hdrop
  · rintro ⟨hlt, hdrop⟩
    rw [register_cat_of_lt cat hlt]
    exact ⟨.inl hlt, hdrop⟩

theorem mounts_register_dropped (hd : cat.dropped = true) :
    (px.register cat).mounts = px.mounts := by
  ext m
  refine exists_congr fun i => ?_
  rw [live_register_dropped hd]
  refine and_congr_right fun hi => ?_
  rw [register_cat_of_lt cat hi.1]

theorem Sound.register_dropped (hs : px.Sound Q) (hd : cat.dropped = true)
    (htot : cat.tot = none) : (px.register cat).Sound Q where
  root := by
    rw [live_register_dropped hd, register_cat_of_lt cat hs.root.1.1]
    exact hs.root
  distinct := fun i j hi hj he => by
    have hi := (live_register_dropped hd).mp hi
    have hj := (live_register_dropped hd).mp hj
    rw [register_cat_of_lt cat hi.1, register_cat_of_lt cat hj.1] at he
    exact hs.distinct i j hi hj he
  region := fun i hi => by
    have hi := (live_register_dropped hd).mp hi
    rw [mounts_register_dropped hd, register_cat_of_lt cat hi.1]
    exact hs.region i hi
  owner := fun i hi n hn j hj he => by
    have hi := (live_register_dropped hd).mp hi
    have hj := (live_register_dropped hd).mp hj
    rw [register_cat_of_lt cat hi.1] at hn
    rw [register_cat_of_lt cat hj.1] at he ⊢
    exact hs.owner i hi n hn j hj he
  tot := fun i => by
    by_cases h : i = px.count
    · rw [h, register_cat_self]
      exact htot
    · have hcat : (px.register cat).cat i = px.cat i := Function.update_of_ne h ..
      rw [hcat]
      exact hs.tot i

theorem register_modify_self (f : OpenCat → OpenCat) :
    (px.register cat).modify px.count f = px.register (f cat) := by
  simp [Ctx.register, Ctx.modify]

/-- A catalog with the rows of one that was mounted at `sub` moved back into it -/
structure Dissolved (sub : Path) (c db db' : Catalog) : Prop where
  root : ∃ r, db'.row sub = some r
  row : ∀ r, Under sub r.path → c.row r.path = some r → db'.row r.path = some r.copied
  other : ∀ q, ¬sub <+: q → db'.row q = db.row q
  nested : ∀ n, n ∈ db'.nested ↔ n.1 ≠ sub ∧ (n ∈ c.nested ∨
    n ∈ db.nested ∧ ∀ x ∈ c.nested, x.1 ≠ n.1)

/-- A dissolve moves the rows back and drops the catalog. -/
theorem dtDissolve_eq (hc : c.Layer sub) (hk : k < px.count)
    (h : dtDissolve (pubCatMaterialize px sub (some k) c) k sub px.count = some px') :
    ∃ cat db', cat.dropped = true ∧ cat.tot = none ∧ Dissolved sub c (px.cat k).db db' ∧
      px' = (px.register cat).modify k fun cat => cat.wrote db' := by
  have hat : (pubCatMaterialize px sub (some k) c).cat px.count =
      ⟨sub, some c, c, true, some k, false, false, none⟩ := register_cat_self ..
  have hatk : (pubCatMaterialize px sub (some k) c).cat k = px.cat k := register_cat_of_lt _ hk
  rw [dtDissolve, hat, hatk] at h
  obtain ⟨root, hroot, h⟩ := Option.bind_eq_some_iff.mp h
  obtain ⟨orig, horig, h⟩ := Option.bind_eq_some_iff.mp h
  cases horig
  obtain ⟨db, hdb, h⟩ := Option.bind_eq_some_iff.mp h
  cases h
  have hcopy := dtCopySubtree_copied (hc.plainBelow (prefix_refl _)) hdb
  obtain ⟨hrows, -, hnested⟩ := dtMoveNested_spec c db []
    (fun x hx y hy _ he => inj_on_of_nodup_map hc.keys.nested hx hy he)
    fun _ x hx he => not_under_nil (he ▸ (hc.nested x hx).1)
  refine ⟨⟨sub, some c, c, true, some k, false, true, none⟩,
    (dtMoveNested c db []).delNested sub, rfl, rfl, ⟨?_, ?_, ?_, ?_⟩, ?_⟩
  · refine ⟨{ root with path := sub, flags := flagDir }.stored, ?_⟩
    rw [Catalog.row, Catalog.delNested, hrows]
    refine (hcopy.other sub fun hu => absurd rfl hu.2).trans ?_
    rw [row_upsert, if_pos rfl]
  · intro r hu hr
    rw [Catalog.row, Catalog.delNested, hrows]
    exact hcopy.row r hu hr
  · intro q hq
    rw [Catalog.row, Catalog.delNested, hrows]
    refine (hcopy.other q fun hu => absurd hu.1 hq).trans ?_
    rw [row_upsert, if_neg]
    exact fun he => hq (he ▸ prefix_refl _)
  · intro n
    have hall : ∀ x ∈ c.nested, Under [] x.1 := fun x hx =>
      Under.prefix_trans List.nil_prefix (hc.nested x hx).1
    have hdel : n ∈ ((dtMoveNested c db []).delNested sub).nested ↔
        n ∈ (dtMoveNested c db []).nested ∧ n.1 ≠ sub := Keyed.mem_erase
    rw [hdel, hnested, hcopy.nested, and_comm]
    refine and_congr_right fun _ => or_congr ⟨And.left, fun hn => ⟨hn, hall n hn⟩⟩ ?_
    exact and_congr_right fun _ => ⟨fun h x hx => h x hx (hall x hx), fun h x hx _ => h x hx⟩
  · rw [pubCatMaterialize, register_modify_self]

namespace Dissolved

variable {M : Set Path} {db db' : Catalog}

theorem cases (h : Dissolved sub c db db') {n : Path × Catalog} (hn : n ∈ db'.nested) :
    n ∈ c.nested ∨ n ∈ db.nested ∧ n.1 ≠ sub := by
  obtain ⟨hne, hn⟩ := (h.nested n).mp hn
  exact hn.imp id fun h => ⟨h.1, hne⟩

theorem old (h : Dissolved sub c db db') (hreg : db.Region Q M m) (hc : (sub, c) ∈ db.nested)
    {n : Path × Catalog} (hn : n ∈ db.nested) (hne : n.1 ≠ sub) :
    ¬sub <+: n.1 ∧ ∀ q, q <+: n.1 → db'.row q = db.row q := by
  have hnot : ¬sub <+: n.1 := fun hpre => hreg.apart n hn _ hc ⟨hpre, fun he => hne he.symm⟩
  exact ⟨hnot, fun q hq => h.other q fun hpre => hnot (hpre.trans hq)⟩

theorem region (h : Dissolved sub c db db') (hreg : db.Region Q M m) (hc : (sub, c) ∈ db.nested)
    (hlayer : c.Layer sub) (hfree : ∀ q ∈ M, ¬sub <+: q) : db'.Region Q M m := by
  have hin : ∀ n ∈ c.nested, Under sub n.1 := fun n hn => (hlayer.nested n hn).1
  constructor
  · intro n hn
    rcases h.cases hn with hn | ⟨hn, -⟩
    · exact (hreg.isOver _ hc).extend (hin n hn) fun q hq hpre => absurd hpre (hfree q hq)
    · exact hreg.isOver n hn
  · intro n hn q hq hu
    rcases h.cases hn with hn | ⟨hn, -⟩
    · exact absurd ((hin n hn).1.trans hu.1) (hfree q hq)
    · exact hreg.opened n hn q hq hu
  · intro n hn
    rcases h.cases hn with hn | ⟨hn, hne⟩
    · obtain ⟨-, r, hr', hp, hm⟩ := hlayer.nested n hn
      refine ⟨r.copied, ?_, hm⟩
      rw [← hp]
      exact h.row r (hp ▸ hin n hn) (hlayer.keys.row.mpr ⟨hr', rfl⟩)
    · rw [(h.old hreg hc hn hne).2 n.1 (prefix_refl _)]
      exact hreg.row n hn
  · intro n hn d hd hu
    rcases h.cases hn with hn | ⟨hn, hne⟩
    · obtain ⟨-, r, hr', hp, -⟩ := hlayer.nested n hn
      rcases comparable (hin n hn).1 hu.1 with hpre | hlt
      · by_cases he : d = sub
        · obtain ⟨r', hroot⟩ := h.root
          rw [he, hroot]
          rfl
        · have hlt : Under sub d := ⟨hpre, fun he' => he he'.symm⟩
          obtain ⟨r', hmem, rfl, -⟩ := hlayer.between hr' hlt (hp ▸ hu)
          rw [h.row r' hlt (hlayer.keys.row.mpr ⟨hmem, rfl⟩)]
          rfl
      · rw [h.other d fun hpre => hlt.2 (hlt.1.eq_of_length_le hpre.length_le)]
        exact hreg.between _ hc d hd hlt
    · rw [(h.old hreg hc hn hne).2 d hu.1]
      exact hreg.between n hn d hd hu
  · intro n hn n' hn' hu
    rcases h.cases hn with hn | ⟨hn, hne⟩ <;> rcases h.cases hn' with hn' | ⟨hn', hne'⟩
    · exact hlayer.apart hn hn' hu
    · rcases comparable (hin n hn).1 hu.1 with hpre | hlt
      · exact (h.old hreg hc hn' hne').1 hpre
      · exact hreg.apart _ hc n' hn' hlt
    · exact (h.old hreg hc hn hne).1 ((hin n' hn').1.trans hu.1)
    · exact hreg.apart n hn n' hn' hu
  · intro n hn
    rcases h.cases hn with hn | ⟨hn, -⟩
    · exact (hreg.stored _ hc).children n hn
    · exact hreg.stored n hn

end Dissolved

/-- A mount point that the walk comes to -/
theorem Sound.dtMount (hs : px.Sound Q) (hr : Ready rd px k sub)
    (h : dtMount env dt px k sub = some px') : px'.Sound Q ∧ Changed (sub <+: ·) px px' := by
  have hnew : sub ∉ px.mounts := fun hmem => hr.free sub hmem (prefix_refl _)
  rcases dtMount_cases h with rfl | ⟨c, hc, rfl | h⟩
  · exact ⟨hs, .refl _ _⟩
  · refine ⟨hs.materialize hr.live hc hnew, Nat.le_succ _, fun i hi => ?_, fun i hi => ?_,
      fun i hi => ?_, fun i hi n hn => ?_, fun q hq => ?_⟩
    · rw [pubCatMaterialize, register_cat_of_lt _ hi]
    · rw [pubCatMaterialize, register_cat_of_lt _ hi]
    · rw [pubCatMaterialize, register_cat_of_lt _ hi]
    · rw [pubCatMaterialize, register_cat_of_lt _ hi] at hn
      exact .inr hn
    · rw [pubCatMaterialize, mounts_register rfl] at hq
      exact (Set.mem_insert_iff.mp hq).symm.imp id fun he : q = sub => he ▸ prefix_refl _
  · have hreg := hs.region k hr.live
    have hlayer : c.Layer sub := (hreg.stored _ hc).here.1
    obtain ⟨cat, db', hd, htot, hdis, rfl⟩ := dtDissolve_eq hlayer hr.live.1 h
    have hlt : ∀ {i}, i < px.count → (px.register cat).cat i = px.cat i := fun hi =>
      register_cat_of_lt _ hi
    have hkeeps : Keeps (fun cat => cat.wrote db') ((px.register cat).cat k) := keeps_wrote _ _
    have hin : ∀ n ∈ c.nested, Under sub n.1 := fun n hn => (hlayer.nested n hn).1
    refine ⟨(hs.register_dropped hd htot).modify hkeeps (fun _ => ?_) fun _ n hn j hj he => ?_, ?_⟩
    · rw [mounts_register_dropped hd, hlt hr.live.1]
      exact hdis.region hreg hc hlayer hr.free
    · have hj := (live_register_dropped hd).mp hj
      rw [hlt hj.1] at he ⊢
      rcases hdis.cases hn with hn | ⟨hn, -⟩
      · exact absurd (he ▸ (hin n hn).1) (hr.free _ (mem_mounts_of_live hj))
      · exact hs.owner k hr.live n hn j hj he
    · refine ⟨Nat.le_succ _, fun i hi => ?_, fun i hi => ?_, fun i hi => ?_, fun i hi n hn => ?_,
        fun q hq => ?_⟩
      · rw [modify_mount hkeeps, hlt hi]
      · by_cases hik : i = k
        · rw [hik, modify_cat_self, hlt hr.live.1]
          rfl
        · rw [modify_cat_of_ne _ hik, hlt hi]
      · by_cases hik : i = k
        · rw [hik, modify_cat_self, hlt hr.live.1]
          rfl
        · rw [modify_cat_of_ne _ hik, hlt hi]
      · by_cases hik : i = k
        · rw [hik, modify_cat_self] at hn
          rw [hik]
          rcases hdis.cases hn with hn | ⟨hn, -⟩
          · exact .inl (hin n hn).1
          · exact .inr hn
        · rw [modify_cat_of_ne _ hik, hlt hi] at hn
          exact .inr hn
      · rw [mounts_modify hkeeps, mounts_register_dropped hd] at hq
        exact .inl hq

end Ctx

end BrixCache.Publish
