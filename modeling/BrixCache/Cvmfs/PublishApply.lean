import BrixCache.Cvmfs.PublishMounts

/-!
# Opening catalogs and applying changes

The catalogs on the way to a path are opened one below the other, and the last of them is the
nearest mount point above the path (`pubOwner_owns`). A change of a path is made there, and keeps
what holds of the open catalogs, unless a catalog is open already where a fresh one is made.
-/

namespace BrixCache.Publish

open Mounts Function List

variable {Q : Path → Catalog → Prop} {c : Catalog} {m p q path : Path} {r : Row}
  {px px' : Ctx} {i j k k' : ℕ} {cat : OpenCat}

namespace Ctx

/-! ## One more open catalog -/

/-- A catalog is registered below `k`, which is the nearest above it and names nothing on the way to
it or behind it. -/
theorem Sound.register (hs : px.Sound Q) (hk : px.Live k) (hd : cat.dropped = false)
    (htot : cat.tot = none) (hparent : cat.parent = some k)
    (hover : Over px.mounts (px.cat k).mount cat.mount) (hnew : cat.mount ∉ px.mounts)
    (hclear : ∀ n ∈ (px.cat k).db.nested, ¬Under cat.mount n.1 ∧ ¬Under n.1 cat.mount)
    (hregion : cat.db.Region Q (insert cat.mount px.mounts) cat.mount)
    (hfree : ∀ n ∈ cat.db.nested, n.1 ∉ px.mounts) : (px.register cat).Sound Q := by
  have hmk := mem_mounts_of_live hk
  -- an open catalog above the new one that names something beside it is `k`
  have hsame : ∀ i, px.Live i → ∀ n ∈ (px.cat i).db.nested, Under (px.cat i).mount cat.mount →
      Under (px.cat k).mount n.1 → i = k := fun i hi n hn hu hun => by
    have hle := hover.nearest _ (mem_mounts_of_live hi) hu
    have hge := ((hs.region i hi).isOver n hn).nearest _ hmk hun
    exact hs.distinct i k hi hk (hle.eq_of_length_le hge.length_le)
  constructor
  · rw [register_cat_of_lt cat hs.root.1.1]
    exact ⟨(live_register hd).mpr (.inl hs.root.1), hs.root.2⟩
  · intro i j hi hj he
    rcases (live_register hd).mp hi with hi | rfl <;> rcases (live_register hd).mp hj with hj | rfl
    · rw [register_cat_of_lt cat hi.1, register_cat_of_lt cat hj.1] at he
      exact hs.distinct i j hi hj he
    · rw [register_cat_of_lt cat hi.1, register_cat_self] at he
      exact absurd ⟨i, hi, he⟩ hnew
    · rw [register_cat_of_lt cat hj.1, register_cat_self] at he
      exact absurd ⟨j, hj, he.symm⟩ hnew
    · rfl
  · intro i hi
    rw [mounts_register hd]
    rcases (live_register hd).mp hi with hi | rfl
    · rw [register_cat_of_lt cat hi.1]
      refine (hs.region i hi).insert ?_ fun n hn hu => ?_
      · refine or_iff_not_imp_left.mpr fun hnot n hn hu => ?_
        have hlt := (comparable hu.1 ((hs.region i hi).isOver n hn).under.1).resolve_left hnot
        obtain rfl := hsame i hi n hn hlt (hover.under.mono hu.1)
        exact (hclear n hn).1 hu
      · have hin := ((hs.region i hi).isOver n hn).under
        rcases comparable hu.1 hover.under.1 with hpre | hlt
        · by_cases he : n.1 = (px.cat k).mount
          · rw [he]
            exact hmk
          · exact (hs.region i hi).opened n hn _ hmk ⟨hpre, he⟩
        · obtain rfl := hsame i hi n hn (hin.mono hu.1) hlt
          exact absurd hu (hclear n hn).2
    · rw [register_cat_self]
      exact hregion
  · intro i hi n hn j hj he
    rcases (live_register hd).mp hi with hi | rfl
    · rw [register_cat_of_lt cat hi.1] at hn
      rcases (live_register hd).mp hj with hj | rfl
      · rw [register_cat_of_lt cat hj.1] at he ⊢
        exact hs.owner i hi n hn j hj he
      · rw [register_cat_self] at he ⊢
        have hm := hover.unique (he ▸ (hs.region i hi).isOver n hn)
        rw [hparent, hs.distinct k i hk hi hm]
    · rw [register_cat_self] at hn
      rcases (live_register hd).mp hj with hj | rfl
      · rw [register_cat_of_lt cat hj.1] at he
        exact absurd ⟨j, hj, he⟩ (hfree n hn)
      · rw [register_cat_self] at he
        exact absurd he (hregion.isOver n hn).under.2
  · intro i
    by_cases h : i = px.count
    · rw [h, register_cat_self]
      exact htot
    · have hcat : (px.register cat).cat i = px.cat i := update_of_ne h ..
      rw [hcat]
      exact hs.tot i

theorem Sound.materialize (hs : px.Sound Q) (hk : px.Live k)
    (hn : (p, c) ∈ (px.cat k).db.nested) (hnew : p ∉ px.mounts) :
    (pubCatMaterialize px p (some k) c).Sound Q := by
  have hreg := hs.region k hk
  have hfree : ∀ q ∈ px.mounts, ¬Under p q := fun q hq hu => hnew (hreg.opened _ hn q hq hu)
  have hstored := hreg.stored _ hn
  refine hs.register hk rfl rfl rfl (hreg.isOver _ hn) hnew
    (fun n hn' => ⟨hreg.apart n hn' _ hn, hreg.apart _ hn n hn'⟩) ?_ fun n hn' hmem => ?_
  · refine .of_stored hstored (.inr (Set.mem_insert _ _)) fun q hq hu => ?_
    rcases Set.mem_insert_iff.mp hq with rfl | hq
    · exact hu.2 rfl
    · exact hfree q hq hu
  · exact hfree n.1 hmem (hstored.here.1.nested n hn').1

theorem pubCatFresh_eq_some (h : pubCatFresh px m k r = some px') : ∃ db : Catalog,
    px' = px.register ⟨m, none, db, true, some k, true, false, none⟩ ∧ db.nested = [] ∧
      db.chunks = [] ∧ db.rows = [{ r with path := m, flags := flagDir ||| flagDirNestedRoot }.stored] := by
  obtain ⟨db, hdb, rfl⟩ := Option.map_eq_some_iff.mp h
  obtain ⟨rows, hrows, rfl⟩ := Option.map_eq_some_iff.mp hdb
  obtain ⟨-, rfl⟩ := Keyed.insert_eq_some.mp hrows
  exact ⟨_, rfl, rfl, rfl, rfl⟩

theorem Catalog.Region.of_nil {M : Set Path} (h : c.nested = []) : c.Region Q M m := by
  have hno : ∀ n ∈ c.nested, False := fun n hn => by simp [h] at hn
  exact ⟨fun n hn => (hno n hn).elim, fun n hn => (hno n hn).elim, fun n hn => (hno n hn).elim,
    fun n hn => (hno n hn).elim, fun n hn => (hno n hn).elim, fun n hn => (hno n hn).elim⟩

/-! ## On the way to a path -/

/-- Catalogs were opened above a path, the others are as they were. -/
structure Opens (px px' : Ctx) (path : Path) : Prop where
  count : px.count ≤ px'.count
  cat : ∀ i, i < px.count → px'.cat i = px.cat i
  mounts : ∀ q ∈ px'.mounts, q ∈ px.mounts ∨ Under q path

theorem Opens.refl (px : Ctx) (path : Path) : Opens px px path :=
  ⟨Nat.le_refl _, fun _ _ => rfl, fun _ hq => .inl hq⟩

/-- The catalog is the nearest above a path, and names nothing else on the way to it. -/
structure Owns (px : Ctx) (k : ℕ) (path : Path) : Prop where
  live : px.Live k
  isOver : Over px.mounts (px.cat k).mount path
  above : ∀ n ∈ (px.cat k).db.nested, ¬Under n.1 path

/-- The catalog is the nearest at or above the names that are behind, and names none of them. -/
structure Behind (px : Ctx) (k : ℕ) (done : Path) : Prop where
  live : px.Live k
  mount : (px.cat k).mount <+: done
  nearest : ∀ q ∈ px.mounts, q <+: done → q <+: (px.cat k).mount
  named : ∀ n ∈ (px.cat k).db.nested, ¬n.1 <+: done

theorem Behind.owns {name : Bytes} (h : Behind px k p) : Owns px k (p ++ [name]) where
  live := h.live
  isOver := ⟨Under.prefix_trans h.mount (under_snoc p name), .inr (mem_mounts_of_live h.live),
    fun q hq hu => h.nearest q hq (under_snoc_iff.mp hu)⟩
  above := fun n hn hu => h.named n hn (under_snoc_iff.mp hu)

theorem Behind.snoc {name : Bytes} (h : Behind px k p) (hnot : p ++ [name] ∉ px.mounts)
    (hnamed : ∀ n ∈ (px.cat k).db.nested, n.1 ≠ p ++ [name]) : Behind px k (p ++ [name]) where
  live := h.live
  mount := h.mount.trans (prefix_append _ _)
  nearest := fun q hq hpre => by
    by_cases he : q = p ++ [name]
    · exact absurd (he ▸ hq) hnot
    · exact h.nearest q hq (under_snoc_iff.mp ⟨hpre, he⟩)
  named := fun n hn hpre => h.named n hn (under_snoc_iff.mp ⟨hpre, hnamed n hn⟩)

theorem Sound.behind (hs : px.Sound Q) (hi : px.Live i) : Behind px i (px.cat i).mount where
  live := hi
  mount := prefix_refl _
  nearest := fun _ _ hpre => hpre
  named := fun n hn hpre => by
    have hu := ((hs.region i hi).isOver n hn).under.length
    have := hpre.length_le
    omega

/-- The loop ends at the catalog that owns the path. -/
theorem pubOwnerLoop_owns {done rest : Path} (hne : rest ≠ []) (hs : px.Sound Q)
    (hb : Behind px k done) (h : pubOwnerLoop px k done rest = some (px', k')) :
    px'.Sound Q ∧ Owns px' k' (done ++ rest) ∧ Opens px px' (done ++ rest) := by
  induction rest generalizing px k done with
  | nil => exact absurd rfl hne
  | cons name rest ih =>
    cases rest with
    | nil =>
      obtain ⟨rfl, rfl⟩ := Prod.mk.inj (Option.some.inj h)
      exact ⟨hs, hb.owns, .refl _ _⟩
    | cons next rest =>
      have hpath : done ++ name :: next :: rest = done ++ [name] ++ next :: rest := by simp
      have hcons : next :: rest ≠ [] := cons_ne_nil _ _
      rw [pubOwnerLoop] at h
      swap
      · exact hcons
      rw [hpath]
      split at h
      · next child hfind =>
        obtain ⟨hlive, hm⟩ := pubCatFind_eq_some hfind
        exact ih hcons hs (hm ▸ hs.behind hlive) h
      · next hfind =>
        have hnot := pubCatFind_eq_none.mp hfind
        have hreg := hs.region k hb.live
        split at h
        · next hlook =>
          -- a nested row for this name would have a row of the catalog
          refine ih hcons hs (hb.snoc hnot fun n hn he => ?_) h
          obtain ⟨r, hr, -⟩ := hreg.row n hn
          rw [he] at hr
          simp [Catalog.lookup, hr] at hlook
        · next de hlook =>
          obtain ⟨r, hr, rfl⟩ := Option.map_eq_some_iff.mp hlook
          split at h
          · split at h
            · cases h
            · next c hc =>
              have hn : (done ++ [name], c) ∈ (px.cat k).db.nested := by
                obtain ⟨⟨q, c'⟩, hfind', rfl⟩ := Option.map_eq_some_iff.mp hc
                have hq := find?_some hfind'
                simp only [decide_eq_true_eq] at hq
                rw [← hq]
                exact mem_of_find?_eq_some hfind'
              have hs' := hs.materialize hb.live hn hnot
              have hlive' : (pubCatMaterialize px (done ++ [name]) (some k) c).Live px.count :=
                (live_register rfl).mpr (.inr rfl)
              have hmount : ((pubCatMaterialize px (done ++ [name]) (some k) c).cat
                  px.count).mount = done ++ [name] := by
                rw [pubCatMaterialize, register_cat_self]
              have hb' := hs'.behind hlive'
              rw [hmount] at hb'
              obtain ⟨hsound, howns, hopens⟩ := ih hcons hs' hb' h
              refine ⟨hsound, howns, (Nat.le_succ _).trans hopens.count, fun i hi => ?_,
                fun q hq => ?_⟩
              · rw [hopens.cat i (Nat.lt_succ_of_lt hi)]
                exact register_cat_of_lt _ hi
              · rcases hopens.mounts q hq with hq | hu
                · rw [pubCatMaterialize, mounts_register rfl] at hq
                  rcases Set.mem_insert_iff.mp hq with rfl | hq
                  · exact .inr ⟨prefix_append _ _, fun he => by
                      simpa using congrArg length he⟩
                  · exact .inl hq
                · exact .inr hu
          · next hmount =>
            refine ih hcons hs (hb.snoc hnot fun n hn he => hmount ?_) h
            obtain ⟨r', hr', hmount'⟩ := hreg.row n hn
            rw [he, hr] at hr'
            cases hr'
            exact hmount'

theorem pubOwner_owns (hs : px.Sound Q) (hpath : path ≠ []) (h : pubOwner px path = some (px', k)) :
    px'.Sound Q ∧ Owns px' k path ∧ Opens px px' path :=
  pubOwnerLoop_owns hpath hs (hs.root.2 ▸ hs.behind hs.root.1) h

/-! ## Changes -/

/-- Drop the open catalogs at or below a path. -/
def dropBelow (px : Ctx) (p : Path) : Ctx :=
  { px with
    cat := fun i => if p <+: (px.cat i).mount then { px.cat i with dropped := true }
      else px.cat i }

theorem dropBelow_of_not (h : ¬p <+: (px.cat i).mount) : (px.dropBelow p).cat i = px.cat i :=
  if_neg h

theorem live_dropBelow : (px.dropBelow p).Live i ↔ px.Live i ∧ ¬p <+: (px.cat i).mount := by
  by_cases h : p <+: (px.cat i).mount
  · simp [Live, dropBelow, h]
  · rw [Live, dropBelow_of_not h]
    exact ⟨fun hi => ⟨hi, h⟩, And.left⟩

theorem mounts_dropBelow : (px.dropBelow p).mounts = clear px.mounts p := by
  ext m
  rw [mem_clear]
  constructor
  · rintro ⟨i, hi, rfl⟩
    obtain ⟨hi, hnot⟩ := live_dropBelow.mp hi
    rw [dropBelow_of_not hnot]
    exact ⟨mem_mounts_of_live hi, hnot⟩
  · rintro ⟨⟨i, hi, rfl⟩, hnot⟩
    exact ⟨i, live_dropBelow.mpr ⟨hi, hnot⟩, by rw [dropBelow_of_not hnot]⟩

theorem Sound.dropBelow (hs : px.Sound Q) (hp : p ≠ []) : (px.dropBelow p).Sound Q where
  root := by
    have hnot : ¬p <+: (px.cat 0).mount := by
      rw [hs.root.2]
      exact fun hpre => hp (prefix_nil.mp hpre)
    rw [dropBelow_of_not hnot]
    exact ⟨live_dropBelow.mpr ⟨hs.root.1, hnot⟩, hs.root.2⟩
  distinct := fun i j hi hj he => by
    obtain ⟨hi, hni⟩ := live_dropBelow.mp hi
    obtain ⟨hj, hnj⟩ := live_dropBelow.mp hj
    rw [dropBelow_of_not hni, dropBelow_of_not hnj] at he
    exact hs.distinct i j hi hj he
  region := fun i hi => by
    obtain ⟨hi, hni⟩ := live_dropBelow.mp hi
    rw [dropBelow_of_not hni, mounts_dropBelow]
    exact (hs.region i hi).clear hni
  owner := fun i hi n hn j hj he => by
    obtain ⟨hi, hni⟩ := live_dropBelow.mp hi
    obtain ⟨hj, hnj⟩ := live_dropBelow.mp hj
    rw [dropBelow_of_not hni] at hn
    rw [dropBelow_of_not hnj] at he ⊢
    exact hs.owner i hi n hn j hj he
  tot := fun i => by
    by_cases h : p <+: (px.cat i).mount
    · simp [Ctx.dropBelow, h, hs.tot i]
    · rw [dropBelow_of_not h]
      exact hs.tot i

theorem Sound.wrote {db : Catalog} (hs : px.Sound Q)
    (hregion : px.Live k → db.Region Q px.mounts (px.cat k).mount)
    (hsub : ∀ n ∈ db.nested, n ∈ (px.cat k).db.nested) :
    (px.modify k fun cat => cat.wrote db).Sound Q :=
  hs.shrink (keeps_wrote db _) hregion hsub

theorem Owns.not_named (hs : px.Sound Q) (ho : px.Owns k path)
    (hnone : (px.cat k).db.lookup path = none) : ∀ n ∈ (px.cat k).db.nested, ¬path <+: n.1 := by
  intro n hn hpre
  have hreg := hs.region k ho.live
  rw [Catalog.lookup, Option.map_eq_none_iff] at hnone
  by_cases he : path = n.1
  · obtain ⟨r, hr, -⟩ := hreg.row n hn
    rw [← he, hnone] at hr
    cases hr
  · have hsome := hreg.between n hn path ho.isOver.under ⟨hpre, he⟩
    rw [hnone] at hsome
    cases hsome

section Apply

variable {env : Env} {dt : Dirtab} {chunkSize : ℕ} {ch : Change}

/-- A deletion keeps the catalogs sound. -/
theorem Sound.pubApplyDelete (hs : px.Sound Q) (ho : px.Owns k ch.path) (hne : ch.path ≠ [])
    (hg : (px.cat k).db.Globbed env.glob ch.path)
    (h : pubApplyDelete env px k ch = some px') : px'.Sound Q := by
  rw [Publish.pubApplyDelete] at h
  dsimp only at h
  -- with the row of the mount point itself gone, the rest is deleting the subtree
  have hdel : ∀ db : Catalog, (∀ n ∈ db.nested, n ∈ (px.cat k).db.nested) →
      (∀ q, db.row q = (px.cat k).db.row q) →
      (do
        let db ← db.deleteSubtree env.glob ch.path
        some ((px.dropBelow ch.path).modify k fun cat => cat.wrote db)) = some px' →
      px'.Sound Q := by
    intro db hsub hrow h
    obtain ⟨db', hdb', h⟩ := Option.bind_eq_some_iff.mp h
    cases h
    have hnot : ¬ch.path <+: (px.cat k).mount := fun hpre => by
      have := ho.isOver.under.length
      have := hpre.length_le
      omega
    have hg' : db.Globbed env.glob ch.path := fun n hn => hg n (hsub n hn)
    have hreg := (hs.region k ho.live).shrink hsub fun n _ q _ => hrow q
    refine (hs.dropBelow hne).wrote (fun _ => ?_) fun n hn => ?_
    · rw [mounts_dropBelow, dropBelow_of_not hnot]
      exact (hreg.deleteSubtree hg' hdb').clear hnot
    · rw [dropBelow_of_not hnot]
      exact hsub n ((deleteSubtree_frame hg' hdb').1 n hn).1
  cases hlook : (px.cat k).db.lookup ch.path with
  | none =>
    rw [hlook] at h
    exact hdel _ (fun _ hn => hn) (fun _ => rfl) h
  | some de =>
    rw [hlook] at h
    by_cases hm : de.isMount = true
    · simp only [hm, if_true] at h
      exact hdel ((px.cat k).db.delNested ch.path) (fun n hn => (Keyed.mem_erase.mp hn).1)
        (fun _ => rfl) h
    · simp only [hm] at h
      exact hdel _ (fun _ hn => hn) (fun _ => rfl) h

theorem register_modify (h : k < px.count) (f : OpenCat → OpenCat) :
    (px.register cat).modify k f = (px.modify k f).register cat := by
  have hne : px.count ≠ k := Ne.symm (Nat.ne_of_lt h)
  simp only [Ctx.register, Ctx.modify, update_of_ne (Ne.symm hne)]
  rw [update_comm hne]

theorem Sound.upsert {db : Catalog} (hs : px.Sound Q)
    (hregion : px.Live k → db.Region Q px.mounts (px.cat k).mount)
    (hsub : ∀ n ∈ db.nested, n ∈ (px.cat k).db.nested)
    (hr : ∀ n ∈ db.nested, n.1 = r.path → r.isMount = true) :
    (px.modify k fun cat => cat.wrote (db.upsert r)).Sound Q :=
  hs.wrote (fun hk => (hregion hk).upsert hr) hsub

theorem Sound.nest {db : Catalog} {mount : Row} (hs : px.Sound Q) (ho : px.Owns k path)
    (hnew : path ∉ px.mounts) (hregion : db.Region Q px.mounts (px.cat k).mount)
    (hsub : ∀ n ∈ db.nested, n ∈ (px.cat k).db.nested ∧ ¬path <+: n.1) (hmount : mount.path = path)
    (h : pubCatFresh px path k r = some px') :
    (px'.modify k fun cat => cat.wrote (db.upsert mount)).Sound Q := by
  obtain ⟨fresh, rfl, hnil, -⟩ := pubCatFresh_eq_some h
  rw [register_modify ho.live.1]
  have hkeeps := keeps_wrote (db.upsert mount) (px.cat k)
  have hs' := hs.upsert (k := k) (fun _ => hregion) (fun n hn => (hsub n hn).1)
    fun n hn he => absurd (he.trans hmount ▸ prefix_refl _) (hsub n hn).2
  refine hs'.register ((live_modify hkeeps).mpr ho.live) rfl rfl rfl ?_ ?_ ?_
    (Catalog.Region.of_nil hnil) fun n hn => by simp [hnil] at hn
  · rw [mounts_modify hkeeps, modify_mount hkeeps]
    exact ho.isOver
  · rw [mounts_modify hkeeps]
    exact hnew
  · intro n hn
    rw [modify_cat_self] at hn
    exact ⟨fun hu => (hsub n hn).2 hu.1, ho.above n (hsub n hn).1⟩

def dirRow (ch : Change) : Row := { pubRowFromChange ch with flags := flagDir }

def mountRow (ch : Change) : Row :=
  { pubRowFromChange ch with flags := flagDir ||| flagDirNestedMount }

theorem isMount_mountRow (ch : Change) : (mountRow ch).isMount = true := by
  have hflag : (flagDir ||| flagDirNestedMount) &&& flagDirNestedMount ≠ 0 := by decide
  exact decide_eq_true hflag

/-- What a new directory does with what is left of the catalog: a mount point keeps being one, a
directory that is new or emptied is nested where the rules say so, any other is a plain one. -/
inductive DirWritten (env : Env) (dt : Dirtab) (px : Ctx) (k : ℕ) (ch : Change) (opaqueDir : Bool)
    (db : Catalog) : Ctx → Prop
  | mount : DirWritten env dt px k ch opaqueDir db
      (px.modify k fun cat => cat.wrote (db.upsert (mountRow ch)))
  | nest {mid : Ctx} (hnew : opaqueDir = true ∨ (px.cat k).db.lookup ch.path = none)
      (hnest : pubDirtabNewNests env dt ch.path = true)
      (hmid : pubCatFresh px ch.path k (mountRow ch) = some mid) :
      DirWritten env dt px k ch opaqueDir db
        (mid.modify k fun cat => cat.wrote (db.upsert (mountRow ch)))
  | plain (hplain : ((px.cat k).db.lookup ch.path).any Row.isMount = true → opaqueDir = true) :
      DirWritten env dt px k ch opaqueDir db
        (px.modify k fun cat => cat.wrote (db.upsert (dirRow ch)))

/-- What an added directory writes, said once -/
theorem pubAddDir_cases {opaqueDir noClobber : Bool}
    (h : pubAddDir env dt px k ch opaqueDir noClobber = some px') : ∃ db : Catalog,
    (if opaqueDir = true ∧ ((px.cat k).db.lookup ch.path).isSome = true then
      (px.cat k).db.deleteSubtree env.glob ch.path else some (px.cat k).db) = some db ∧
    DirWritten env dt px k ch opaqueDir db px' := by
  rw [Publish.pubAddDir] at h
  dsimp only at h
  have hrest : ∀ db : Catalog,
      (if ((px.cat k).db.lookup ch.path).any Row.isMount = true ∧ ¬opaqueDir = true then
        some (px.modify k fun cat => cat.wrote (db.upsert (mountRow ch)))
      else if (((px.cat k).db.lookup ch.path).isNone = true ∨ opaqueDir = true) ∧
          pubDirtabNewNests env dt ch.path = true then do
        let mid ← pubCatFresh px ch.path k (mountRow ch)
        some (mid.modify k fun cat => cat.wrote (db.upsert (mountRow ch)))
      else some (px.modify k fun cat => cat.wrote (db.upsert (dirRow ch)))) = some px' →
      DirWritten env dt px k ch opaqueDir db px' := fun db h => by
    split at h
    · cases h
      exact .mount
    · next hplain =>
      split at h
      · next hnest =>
        obtain ⟨mid, hmid, h⟩ := Option.bind_eq_some_iff.mp h
        cases h
        exact .nest (by simpa [or_comm] using hnest.1) hnest.2 hmid
      · cases h
        refine .plain fun hm => ?_
        by_contra hop
        exact hplain ⟨hm, hop⟩
  split at h
  · cases h
  · split at h
    · next hempty =>
      obtain ⟨db, hdb, h⟩ := Option.bind_eq_some_iff.mp h
      exact ⟨db, by rw [if_pos hempty, hdb], hrest db h⟩
    · next hfull => exact ⟨_, if_neg hfull, hrest _ h⟩

/-- An added directory keeps the catalogs sound. -/
theorem Sound.pubAddDir {opaqueDir noClobber : Bool} (hs : px.Sound Q) (ho : px.Owns k ch.path)
    (hg : opaqueDir = true → ((px.cat k).db.lookup ch.path).isSome = true →
      (px.cat k).db.Globbed env.glob ch.path)
    (hfree : pubDirtabNewNests env dt ch.path = true →
      (opaqueDir = true ∨ (px.cat k).db.lookup ch.path = none) → ch.path ∉ px.mounts)
    (h : pubAddDir env dt px k ch opaqueDir noClobber = some px') : px'.Sound Q := by
  have hreg := hs.region k ho.live
  obtain ⟨db, hdb, h⟩ := pubAddDir_cases h
  -- what is left of the nested rows, none of them at the path if it is new or emptied
  have hleft : db.Region Q px.mounts (px.cat k).mount ∧
      (∀ n ∈ db.nested, n ∈ (px.cat k).db.nested) ∧
      ((opaqueDir = true ∨ (px.cat k).db.lookup ch.path = none) →
        ∀ n ∈ db.nested, ¬ch.path <+: n.1) := by
    split at hdb
    · next hempty =>
      have hg := hg hempty.1 hempty.2
      obtain ⟨hframe, -⟩ := deleteSubtree_frame hg hdb
      exact ⟨hreg.deleteSubtree hg hdb, fun n hn => (hframe n hn).1, fun _ n hn => (hframe n hn).2⟩
    · next hnot =>
      cases hdb
      refine ⟨hreg, fun _ hn => hn, fun hor => ho.not_named hs ?_⟩
      rcases hor with hop | hnone
      · rw [Option.eq_none_iff_forall_ne_some]
        exact fun de hde => hnot ⟨hop, by simp [hde]⟩
      · exact hnone
  obtain ⟨hdbreg, hsub, hgone⟩ := hleft
  cases h with
  | mount => exact hs.upsert (fun _ => hdbreg) hsub fun _ _ _ => isMount_mountRow ch
  | nest hor hnest hmid =>
    exact hs.nest ho (hfree hnest hor) hdbreg (fun n hn => ⟨hsub n hn, hgone hor n hn⟩) rfl hmid
  | plain hplain =>
    refine hs.upsert (fun _ => hdbreg) hsub fun n hn he => ?_
    have hpath : n.1 = ch.path := he
    obtain ⟨r, hr, hm⟩ := hreg.row n (hsub n hn)
    have hop := hplain (by
      rw [Catalog.lookup, ← hpath, hr]
      exact hm)
    exact absurd (hpath ▸ prefix_refl _) (hgone (.inl hop) n hn)

theorem pubStoreChunks_frame {off : ℕ} {pieces : List Bytes} {db db' : Catalog}
    (h : pubStoreChunks env path off pieces db = some db') :
    db'.nested = db.nested ∧ db'.rows = db.rows := by
  induction pieces generalizing off db with
  | nil =>
    cases h
    exact ⟨rfl, rfl⟩
  | cons piece rest ih =>
    obtain ⟨mid, hmid, hrest⟩ := Option.bind_eq_some_iff.mp h
    obtain ⟨chunks, -, rfl⟩ := Option.map_eq_some_iff.mp hmid
    obtain ⟨hnested, hrows⟩ := ih hrest
    exact ⟨hnested, hrows⟩

theorem Sound.replaced {db db' : Catalog} (hs : px.Sound Q) (ho : px.Owns k path)
    (hg : (px.cat k).db.Globbed env.glob path)
    (hdel : (px.cat k).db.deleteSubtree env.glob path = some db)
    (hnested : db'.nested = db.nested) (hrows : db'.rows = db.rows) (hr : r.path = path) :
    (px.modify k fun cat => cat.wrote (db'.upsert r)).Sound Q := by
  have hreg := (hs.region k ho.live).deleteSubtree hg hdel
  obtain ⟨hframe, -⟩ := deleteSubtree_frame hg hdel
  refine hs.upsert (fun _ => hreg.shrink (fun n hn => hnested ▸ hn) fun n _ q _ => ?_)
    (fun n hn => (hframe n (hnested ▸ hn)).1) fun n hn he => ?_
  · rw [Catalog.row, hrows]
    rfl
  · exact absurd (he.trans hr ▸ prefix_refl _) (hframe n (hnested ▸ hn)).2

theorem Sound.pubAddFile {content : Option Bytes} (hs : px.Sound Q)
    (ho : px.Owns k ch.path) (hg : (px.cat k).db.Globbed env.glob ch.path)
    (h : pubAddFile env chunkSize px k ch content = some px') : px'.Sound Q := by
  obtain ⟨db, hdel, h⟩ := Option.bind_eq_some_iff.mp h
  obtain ⟨bs, -, h⟩ := Option.bind_eq_some_iff.mp h
  dsimp only at h
  split at h
  · obtain ⟨db', hdb', h⟩ := Option.bind_eq_some_iff.mp h
    cases h
    obtain ⟨hnested, hrows⟩ := pubStoreChunks_frame hdb'
    exact hs.replaced ho hg hdel hnested hrows rfl
  · cases h
    exact hs.replaced ho hg hdel rfl rfl rfl

theorem Sound.pubAddLink {target : Bytes} {noClobber : Bool} (hs : px.Sound Q)
    (ho : px.Owns k ch.path)
    (hg : ¬(noClobber = true ∧ ((px.cat k).db.lookup ch.path).any Row.isDir = true) →
      (px.cat k).db.Globbed env.glob ch.path)
    (h : pubAddLink env px k ch target noClobber = some px') : px'.Sound Q := by
  rw [Publish.pubAddLink] at h
  split at h
  · cases h
  · next hfree =>
    obtain ⟨db, hdel, h⟩ := Option.bind_eq_some_iff.mp h
    cases h
    exact hs.replaced ho (hg hfree) hdel rfl rfl rfl

end Apply

end Ctx

/-! ## A whole changeset -/

section

variable (env : Env) (dt : Dirtab)

/-- No catalog is open at a directory that is about to get a fresh one. -/
def Ctx.Free (px : Ctx) (ch : Change) : Prop :=
  ∀ opaqueDir noClobber px' k, ch.op = .addDir opaqueDir noClobber →
    pubDirtabNewNests env dt ch.path = true → pubOwner px ch.path = some (px', k) →
    opaqueDir = true ∨ (px'.cat k).db.lookup ch.path = none → pubCatFind px ch.path = none

/-- A change deletes what is below its path; `found` is the row that is there. -/
def Change.Empties (ch : Change) (found : Option Row) : Prop :=
  match ch.op with
  | .delete => True
  | .addDir opaqueDir _ => opaqueDir = true ∧ found.isSome = true
  | .addFile _ => True
  | .addLink _ noClobber => ¬(noClobber = true ∧ found.any Row.isDir = true)

/-- Where a change deletes what is below its path, SQLite's pattern selects the nested rows there. -/
def Ctx.Globs (px : Ctx) (ch : Change) : Prop :=
  ∀ px' k, pubOwner px ch.path = some (px', k) → ch.Empties ((px'.cat k).db.lookup ch.path) →
    (px'.cat k).db.Globbed env.glob ch.path

end

theorem Ctx.sound_pubStart {root : Catalog}
    (h : EachCatalog (fun m c => c.Layer m ∧ Q m c) [] root) : (pubStart root).Sound Q := by
  have hcat : (pubStart root).cat 0 = ⟨[], some root, root, true, none, false, false, none⟩ :=
    Ctx.register_cat_self ..
  have hlive : ∀ i, (pubStart root).Live i → i = 0 := fun i hi => Nat.lt_one_iff.mp hi.1
  have hmounts : ∀ q ∈ (pubStart root).mounts, q = [] := by
    rintro q ⟨i, hi, rfl⟩
    rw [hlive i hi, hcat]
  refine ⟨⟨⟨Nat.one_pos, by rw [hcat]⟩, by rw [hcat]⟩, fun i j hi hj _ => ?_, fun i hi => ?_,
    fun i hi n hn j hj he => ?_, fun i => ?_⟩
  · rw [hlive i hi, hlive j hj]
  · rw [hlive i hi, hcat]
    exact .of_stored h (.inl rfl) fun q hq hu => not_under_nil (hmounts q hq ▸ hu)
  · rw [hlive i hi, hcat] at hn
    rw [hlive j hj, hcat] at he
    exact absurd ((h.here.1.nested n hn).1) (he ▸ not_under_nil)
  · by_cases h : i = 0
    · rw [h, hcat]
    · have hne : i ≠ 0 := h
      have hother : (pubStart root).cat i = ⟨[], none, .empty, false, none, false, false, none⟩ :=
        update_of_ne hne ..
      rw [hother]

theorem Ctx.Sound.pubApplyOne {env : Env} {dt : Dirtab} {chunkSize : ℕ} {ch : Change}
    (hs : px.Sound Q) (hne : ch.path ≠ []) (hfree : px.Free env dt ch) (hglob : px.Globs env ch)
    (h : pubApplyOne env dt chunkSize px ch = some px') : px'.Sound Q := by
  obtain ⟨⟨mid, k⟩, hmid, h⟩ := Option.bind_eq_some_iff.mp h
  obtain ⟨hsm, ho, hopens⟩ := Ctx.pubOwner_owns hs hne hmid
  have hg := hglob mid k hmid
  rw [Change.Empties] at hg
  dsimp only at h
  split at h
  · next hop => exact hsm.pubApplyDelete ho hne (hg (by rw [hop]; trivial)) h
  · next opaqueDir noClobber hop =>
    rw [hop] at hg
    refine hsm.pubAddDir ho (fun hop' hsome => hg ⟨hop', hsome⟩) (fun hnest hor hmem => ?_) h
    have hnone := Ctx.pubCatFind_eq_none.mp (hfree _ _ mid k hop hnest hmid hor)
    rcases hopens.mounts _ hmem with hold | hu
    · exact hnone hold
    · exact hu.2 rfl
  · next hop => exact hsm.pubAddFile ho (hg (by rw [hop]; trivial)) h
  · next hop =>
    rw [hop] at hg
    exact hsm.pubAddLink ho hg h

end BrixCache.Publish
