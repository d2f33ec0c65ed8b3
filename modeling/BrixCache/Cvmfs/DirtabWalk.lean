import BrixCache.Cvmfs.DirtabMounts

/-!
# The walk over the directories

Splitting a directory off takes it out of its catalog and makes a fresh one of it, mounted there
(`Split`). The walk visits the directories one after the other, each as it was at the start, and
keeps what holds of the open catalogs.
-/

namespace BrixCache.Publish

open Mounts List

variable {Q : Path → Catalog → Prop} {env : Env} {dt : Dirtab} {c dst rd : Catalog}
  {m p q sub path : Path} {e r : Row} {px px' px'' : Ctx} {i j k k' : ℕ} {cat : OpenCat}

/-! ## A split -/

/-- The root row of a catalog split off -/
def splitRoot (path : Path) (e : Row) : Row :=
  { e with path := path, flags := flagDir ||| flagDirNestedRoot }

def splitMount (path : Path) (e : Row) : Row :=
  { e with path := path, flags := flagDir ||| flagDirNestedMount }

theorem isMount_splitMount (path : Path) (e : Row) : (splitMount path e).isMount = true := by
  have hflag : (flagDir ||| flagDirNestedMount) &&& flagDirNestedMount ≠ 0 := by decide
  exact decide_eq_true hflag

/-- What a split makes of the catalog `old`: the catalog split off, and what is left -/
structure Split (env : Env) (rd : Catalog) (path : Path) (e : Row) (old child left : Catalog) :
    Prop where
  row : ∀ r, Under path r.path → rd.row r.path = some r → child.row r.path = some r.copied
  other : ∀ q, (Under path q → rd.row q = none) →
    child.row q = if q = path then some (splitRoot path e).stored else none
  chunks : ∀ ch, ch ∈ child.chunks ↔
    ch ∈ rd.chunks ∧ Under path ch.path ∧ (rd.row ch.path).any Row.isChunked = true
  nested : ∀ n, n ∈ child.nested ↔ n ∈ old.nested ∧ Under path n.1
  keys : child.Keys
  left : ∃ mid, old.deleteSubtree env.glob path = some mid ∧ left = mid.upsert (splitMount path e)

theorem Catalog.Keys.foldl_setNested {ns : List (Path × Catalog)} (h : dst.Keys) :
    (ns.foldl (fun dst n => dst.setNested n.1 n.2) dst).Keys := by
  induction ns generalizing dst with
  | nil => exact h
  | cons n ns ih => exact ih (h.setNested n.1 n.2)

namespace Ctx

/-- A split moves the rows of a directory to a catalog of its own. -/
theorem dtSplit_eq (hrd : rd.PlainBelow path) (hne : path ≠ []) (hk : k < px.count)
    (horig : ∀ o, (px.cat k).origDb = some o → o = rd)
    (hnested : ∀ x ∈ (px.cat k).db.nested, ∀ y ∈ (px.cat k).db.nested, Under path x.1 →
      x.1 = y.1 → x = y)
    (h : dtSplit env px k path e = some (px', k')) : k' = px.count ∧
    ∃ child left, Split env rd path e (px.cat k).db child left ∧
      px' = (px.modify k fun cat => cat.wrote left).register
        ⟨path, none, child, true, some k, true, false, none⟩ := by
  rw [dtSplit] at h
  obtain ⟨px₁, hfresh, h⟩ := Option.bind_eq_some_iff.mp h
  obtain ⟨fresh, rfl, hnil, hnochunks, hrows⟩ := pubCatFresh_eq_some hfresh
  have hatk : ∀ cat, (px.register cat).cat k = px.cat k := fun cat => register_cat_of_lt cat hk
  rw [hatk, register_cat_self] at h
  obtain ⟨orig, ho, h⟩ := Option.bind_eq_some_iff.mp h
  obtain rfl := horig orig ho
  obtain ⟨db, hdb, h⟩ := Option.bind_eq_some_iff.mp h
  obtain ⟨mid, hmid, h⟩ := Option.bind_eq_some_iff.mp h
  obtain ⟨rfl, rfl⟩ := Prod.mk.inj (Option.some.inj h)
  have hcopy := dtCopySubtree_copied hrd hdb
  obtain ⟨hmrows, hmchunks, hmnested⟩ := dtMoveNested_spec (px.cat k).db db path hnested
    fun hnil => absurd hnil hne
  have hfreshrow : ∀ q, fresh.row q =
      if q = path then some (splitRoot path e).stored else none := fun q => by
    rw [Catalog.row, hrows]
    by_cases hq : q = path
    · rw [if_pos hq, hq]
      exact Keyed.find_cons_self
    · rw [if_neg hq]
      exact Keyed.find_cons_of_ne (Ne.symm hq)
  have hfreshkeys : fresh.Keys := by
    constructor
    · rw [hrows]
      exact nodup_singleton _
    · rw [hnochunks]
      exact nodup_nil
    · rw [hnil]
      exact nodup_nil
  refine ⟨rfl, dtMoveNested (px.cat k).db db path, mid.upsert (splitMount path e),
    ⟨fun r hu hr => ?_, fun q hq => ?_, fun ch => ?_, fun n => ?_, ?_, mid, hmid, rfl⟩, ?_⟩
  · rw [Catalog.row, hmrows]
    exact hcopy.row r hu hr
  · rw [Catalog.row, hmrows]
    exact (hcopy.other q hq).trans (hfreshrow q)
  · rw [hmchunks, hcopy.chunks, hnochunks]
    simp
  · rw [hmnested, hcopy.nested, hnil]
    simp
  · exact (hcopy.keys hfreshkeys).foldl_setNested
  · rw [register_modify_self, register_modify hk]
    rfl

/-- A split keeps the catalogs sound. -/
theorem Sound.dtSplit (hs : px.Sound Q) (hrd : rd.Layer m) (hm : Under m sub)
    (hr : Ready rd px k sub) (hg : (px.cat k).db.Globbed env.glob sub)
    (h : dtSplit env px k sub e = some (px', k')) :
    px'.Sound Q ∧ Changed (sub <+: ·) px px' ∧ ∀ name, Ready rd px' k' (sub ++ [name]) := by
  have hne : sub ≠ [] := fun he => not_under_nil (he ▸ hm)
  have hreg := hs.region k hr.live
  have hrdn : ∀ n ∈ (px.cat k).db.nested, Under sub n.1 → n ∈ rd.nested := fun n hn hu =>
    hr.nested n hn hu.1
  obtain ⟨rfl, child, left, hsplit, rfl⟩ := dtSplit_eq (hrd.plainBelow hm.1) hne hr.live.1 hr.orig
    (fun x hx y hy hu he => inj_on_of_nodup_map hrd.keys.nested (hrdn x hx hu)
      (hrdn y hy (he ▸ hu)) he) h
  have hnew : sub ∉ px.mounts := fun hmem => hr.free sub hmem (prefix_refl _)
  have hkeeps : Keeps (fun cat => cat.wrote left) (px.cat k) := keeps_wrote _ _
  obtain ⟨mid, hmid, hleft⟩ := hsplit.left
  obtain ⟨hframe, -⟩ := deleteSubtree_frame hg hmid
  have hleftn : left.nested = mid.nested := by rw [hleft, Catalog.upsert]
  have hcut : ∀ n ∈ left.nested, n ∈ (px.cat k).db.nested ∧ ¬sub <+: n.1 := fun n hn =>
    hframe n (hleftn ▸ hn)
  -- what is left of the catalog, and then the catalog split off
  have hs' : (px.modify k fun cat => cat.wrote left).Sound Q := by
    rw [hleft]
    refine hs.upsert (fun _ => hreg.deleteSubtree hg hmid) (fun n hn => (hframe n hn).1)
      fun n _ _ => isMount_splitMount sub e
  have hmounts := mounts_modify hkeeps
  have hlive : (px.modify k fun cat => cat.wrote left).Live k := (live_modify hkeeps).mpr hr.live
  have hin : ∀ n ∈ child.nested, n ∈ (px.cat k).db.nested ∧ Under sub n.1 := fun n hn =>
    (hsplit.nested n).mp hn
  have hregion : child.Region Q (insert sub px.mounts) sub := by
    constructor
    · intro n hn
      obtain ⟨hold, hu⟩ := hin n hn
      exact over_insert_self (hreg.isOver n hold) hu hr.isOver.under
    · intro n hn q hq hu
      obtain ⟨-, hsub⟩ := hin n hn
      rcases Set.mem_insert_iff.mp hq with rfl | hq
      · exact absurd (hsub.1.eq_of_length_le hu.1.length_le) hsub.2
      · exact absurd (hsub.1.trans hu.1) (hr.free q hq)
    · intro n hn
      obtain ⟨hold, hu⟩ := hin n hn
      obtain ⟨-, r, hmem, hp, hmount⟩ := hrd.nested n (hrdn n hold hu)
      refine ⟨r.copied, ?_, hmount⟩
      rw [← hp]
      exact hsplit.row r (hp ▸ hu) (hrd.keys.row.mpr ⟨hmem, rfl⟩)
    · intro n hn d hd hu
      obtain ⟨hold, hun⟩ := hin n hn
      obtain ⟨-, r, hmem, hp, -⟩ := hrd.nested n (hrdn n hold hun)
      obtain ⟨r', hmem', rfl, -⟩ := hrd.between hmem (hm.mono hd.1) (hp ▸ hu)
      rw [hsplit.row r' hd (hrd.keys.row.mpr ⟨hmem', rfl⟩)]
      rfl
    · exact fun n hn n' hn' => hreg.apart n (hin n hn).1 n' (hin n' hn').1
    · exact fun n hn => hreg.stored n (hin n hn).1
  have hsound : ((px.modify k fun cat => cat.wrote left).register
      ⟨sub, none, child, true, some k, true, false, none⟩).Sound Q := by
    refine hs'.register hlive rfl rfl rfl ?_ ?_ (fun n hn => ?_) ?_ fun n hn hmem => ?_
    · rw [hmounts, modify_mount hkeeps]
      exact hr.isOver
    · rw [hmounts]
      exact hnew
    · rw [modify_cat_self] at hn
      exact ⟨fun hu => (hcut n hn).2 hu.1, hr.above n (hcut n hn).1⟩
    · rw [hmounts]
      exact hregion
    · rw [hmounts] at hmem
      exact hr.free n.1 hmem (hin n hn).2.1
  have hall : ((px.modify k fun cat => cat.wrote left).register
      ⟨sub, none, child, true, some k, true, false, none⟩).mounts =
        insert sub (px.modify k fun cat => cat.wrote left).mounts := mounts_register rfl
  rw [hmounts] at hall
  have hlt : ∀ i, i < px.count → ((px.modify k fun cat => cat.wrote left).register
      ⟨sub, none, child, true, some k, true, false, none⟩).cat i =
        (px.modify k fun cat => cat.wrote left).cat i := fun i hi => register_cat_of_lt _ hi
  refine ⟨hsound, ⟨Nat.le_succ _, fun i hi => ?_, fun i hi => ?_, fun i hi => ?_,
    fun i hi n hn => ?_, fun q hq => ?_⟩, fun name => ?_⟩
  · rw [hlt i hi, modify_mount hkeeps]
  · rw [hlt i hi]
    by_cases hik : i = k
    · rw [hik, modify_cat_self]
      rfl
    · rw [modify_cat_of_ne _ hik]
  · rw [hlt i hi]
    by_cases hik : i = k
    · rw [hik, modify_cat_self]
      rfl
    · rw [modify_cat_of_ne _ hik]
  · rw [hlt i hi] at hn
    by_cases hik : i = k
    · rw [hik, modify_cat_self] at hn
      rw [hik]
      exact .inr (hcut n hn).1
    · rw [modify_cat_of_ne _ hik] at hn
      exact .inr hn
  · rw [hall] at hq
    exact (Set.mem_insert_iff.mp hq).symm.imp id fun he : q = sub => he ▸ prefix_refl _
  · have hself : ((px.modify k fun cat => cat.wrote left).register
        ⟨sub, none, child, true, some k, true, false, none⟩).cat px.count =
          ⟨sub, none, child, true, some k, true, false, none⟩ := register_cat_self ..
    refine ⟨⟨(live_register rfl).mpr (.inr rfl), ?_, fun n hn hu => ?_⟩, fun q hq hpre => ?_,
      fun n hn hpre => ?_, fun o ho => ?_⟩
    · rw [hall, hself]
      exact over_snoc_of_mem (.inr (Set.mem_insert _ _))
    · rw [hself] at hn
      have := (hin n hn).2.length
      have := (under_snoc_iff.mp hu).length_le
      omega
    · rw [hall] at hq
      rcases Set.mem_insert_iff.mp hq with he | hq
      · have hle : (sub ++ [name]).length ≤ sub.length := (he ▸ hpre).length_le
        rw [length_append, length_singleton] at hle
        omega
      · exact hr.free q hq ((prefix_append _ _).trans hpre)
    · rw [hself] at hn
      exact hrdn n (hin n hn).1 (hin n hn).2
    · rw [hself] at ho
      cases ho

/-! ## The walk -/

theorem readdir_nodup (hk : rd.Keys) (p : Path) : ((rd.readdir p).map Row.path).Nodup := by
  rw [Catalog.readdir, map_map]
  exact hk.rows.sublist (filter_sublist.map _)

/-- SQLite's pattern for each directory that is to be split selects the nested rows below it. -/
def SplitsGlobbed (env : Env) (dt : Dirtab) (rd : Catalog) : Prop :=
  ∀ r ∈ rd.rows, r.path ≠ [] → r.isDir = true → r.isMount = false →
    pubDirtabNewNests env dt r.path = true → rd.Globbed env.glob r.path

/-- **The walk** for the dirtab keeps them sound. -/
theorem Sound.dtWalk {levels : ℕ} (hs : px.Sound Q) (hrd : rd.Layer [])
    (hg : SplitsGlobbed env dt rd) (hr : ∀ name, Ready rd px k (path ++ [name]))
    (h : dtWalk env dt rd levels k path px = some px') :
    px'.Sound Q ∧ Changed (Under path) px px' := by
  induction levels generalizing k path px px' with
  | zero => cases h
  | succ levels ih =>
    -- one entry after the other, each still to be visited as it was
    have hfold : ∀ (es : List Row) (px px' : Ctx), px.Sound Q → (∀ e ∈ es, e ∈ rd.readdir path) →
        (es.map Row.path).Nodup → (∀ e ∈ es, Ready rd px k e.path) →
        es.foldlM (fun px e =>
          if ¬e.isDir then some px
          else
            let sub := path ++ [e.path.getLastD []]
            if pubPathMax ≤ Path.textLen sub then none
            else if e.isMount then Publish.dtMount env dt px k sub
            else if pubDirtabNewNests env dt sub then
              (Publish.dtSplit env px k sub e).bind fun r => Publish.dtWalk env dt rd levels r.2 sub r.1
            else Publish.dtWalk env dt rd levels k sub px) px = some px' →
        px'.Sound Q ∧ Changed (Under path) px px' := by
      intro es
      induction es with
      | nil =>
        intro px px' hs _ _ _ h
        cases h
        exact ⟨hs, .refl _ _⟩
      | cons e es ihe =>
        intro px px' hs hes hnodup hready h
        obtain ⟨hfirst, hrestn⟩ := nodup_cons.mp hnodup
        rw [foldlM_cons] at h
        obtain ⟨mid, hmid, hrest⟩ := Option.bind_eq_some_iff.mp h
        obtain ⟨r, hmem, rfl, hpath⟩ := mem_readdir.mp (hes e mem_cons_self)
        have hr : Ready rd px k r.path := hready r.dirent mem_cons_self
        have hunder : Under path r.path := by
          rw [hpath]
          exact under_snoc _ _
        have hstep : mid.Sound Q ∧ Changed (r.path <+: ·) px mid := by
          simp only [Row.path_dirent, Row.isDir_dirent, Row.isMount_dirent, ← hpath] at hmid
          split at hmid
          · cases hmid
            exact ⟨hs, .refl _ _⟩
          · next hdir =>
            have hdir : r.isDir = true := by simpa using hdir
            split at hmid
            · cases hmid
            · split at hmid
              · exact hs.dtMount hr hmid
              · next hmount =>
                have hmount : r.isMount = false := Bool.eq_false_of_not_eq_true hmount
                split at hmid
                · next hnest =>
                  obtain ⟨⟨px₁, k₁⟩, hsplit, hwalk⟩ := Option.bind_eq_some_iff.mp hmid
                  have hglob : (px.cat k).db.Globbed env.glob r.path := fun n hn hu =>
                    hg r hmem (fun he => not_under_nil (he ▸ hunder)) hdir hmount hnest n
                      (hr.nested n hn hu.1) hu
                  obtain ⟨hs₁, hc₁, hr₁⟩ := hs.dtSplit hrd
                    (Under.prefix_trans List.nil_prefix hunder) hr hglob hsplit
                  obtain ⟨hs₂, hc₂⟩ := ih hs₁ hr₁ hwalk
                  exact ⟨hs₂, hc₁.trans (hc₂.imp fun q hq => hq.1)⟩
                · have hnone : ∀ n ∈ rd.nested, n.1 ≠ r.path := fun n hn he => by
                    obtain ⟨-, r', hmem', hp', hmount'⟩ := hrd.nested n hn
                    obtain rfl := hrd.keys.eq hmem' hmem (hp'.trans he)
                    rw [hmount] at hmount'
                    cases hmount'
                  obtain ⟨hs₂, hc₂⟩ := ih hs (hr.child hnone) hmid
                  exact ⟨hs₂, hc₂.imp fun q hq => hq.1⟩
        obtain ⟨hs₁, hc₁⟩ := hstep
        -- two children of one directory are not above each other
        have hnext : ∀ e ∈ es, Ready rd mid k e.path := fun e' he' => by
          refine (hready e' (mem_cons_of_mem _ he')).of_changed hc₁ fun q hq => ?_
          obtain ⟨r', -, rfl, hpath'⟩ := mem_readdir.mp (hes e' (mem_cons_of_mem _ he'))
          have hlen : r.path.length = r'.path.length := by
            rw [hpath, hpath', length_append, length_append]
            rfl
          have hne : r.path ≠ r'.path := fun he =>
            hfirst (mem_map.mpr ⟨r'.dirent, he', he.symm⟩)
          rw [Row.path_dirent]
          refine ⟨fun hq' => hne ((hq.trans hq').eq_of_length hlen), fun hq' => hne ?_⟩
          rcases List.prefix_or_prefix_of_prefix hq hq' with hpre | hpre
          · exact hpre.eq_of_length hlen
          · exact (hpre.eq_of_length hlen.symm).symm
        obtain ⟨hs₂, hc₂⟩ := ihe mid px' hs₁ (fun e he => hes e (mem_cons_of_mem _ he)) hrestn
          hnext hrest
        exact ⟨hs₂, (hc₁.imp fun q hq => hunder.mono hq).trans hc₂⟩
    refine hfold _ px px' hs (fun _ he => he) (readdir_nodup hrd.keys path) (fun e he => ?_) h
    obtain ⟨r, -, rfl, hpath⟩ := mem_readdir.mp he
    rw [Row.path_dirent, hpath]
    exact hr _

end Ctx

end BrixCache.Publish
