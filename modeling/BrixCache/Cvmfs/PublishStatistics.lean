import BrixCache.Cvmfs.DirtabWalk

/-!
# The counters of a published tree

The catalogs are stored with the counts of their own rows and with what the catalogs below them
come to, which is taken from memory for a catalog stored in this run and from the store for the
others. The memory is asked by mount point alone: as long as no two open catalogs have one mount
point, and only the parent of an open catalog names its mount point, what it says is right
(`Ctx.Summed`), and the tree that is published is counted exactly.
-/

namespace BrixCache.Publish

open Mounts List

namespace Ctx

variable {px px' : Ctx} {i j k : ℕ} {m : Path} {t : Counter → ℤ} {out : Catalog}

abbrev CountedTree : Path → Catalog → Prop := EachCatalog fun _ c => c.Counted

/-- The catalog is still to be stored. -/
def Pending (px : Ctx) (i : ℕ) : Prop := px.Live i ∧ (px.cat i).writing = true

/-- What the totals in memory say while catalogs are stored -/
structure Summed (px : Ctx) : Prop where
  distinct : ∀ i j, px.Live i → px.Live j → (px.cat i).mount = (px.cat j).mount → i = j
  owner : ∀ i, px.Pending i → ∀ n ∈ (px.cat i).db.nested, ∀ j, px.Live j →
    (px.cat j).mount = n.1 → (px.cat j).parent.getD 0 = i
  stored : ∀ i, px.Pending i → ∀ n ∈ (px.cat i).db.nested, CountedTree n.1 n.2
  live : ∀ j, j < px.count → (px.cat j).tot.isSome = true → px.Live j
  totals : ∀ i, px.Pending i → ∀ n ∈ (px.cat i).db.nested, ∀ j, px.Live j → ∀ t,
    (px.cat j).tot = some t → (px.cat j).mount = n.1 → ∀ k, t k = n.2.selfSum k

theorem Sound.summed (hs : px.Sound fun _ c => c.Counted) : px.Summed where
  distinct := hs.distinct
  owner := fun i hi n hn j hj he => by
    rw [hs.owner i hi.1 n hn j hj he, Option.getD_some]
  stored := fun i hi n hn => ((hs.region i hi.1).stored n hn).imp fun _ _ h => h.2
  live := fun j _ htot => by simp [hs.tot j] at htot
  totals := fun i _ n _ j _ t ht => by simp [hs.tot j] at ht

theorem pcOpenTotals_eq_some (h : pcOpenTotals px m = some t) :
    ∃ j, j < px.count ∧ (px.cat j).tot = some t ∧ (px.cat j).mount = m := by
  obtain ⟨j, hj, ht⟩ := Option.bind_eq_some_iff.mp h
  have htest := find?_some hj
  have hmem := mem_of_find?_eq_some hj
  simp only [Bool.and_eq_true, decide_eq_true_eq] at htest
  exact ⟨j, mem_range.mp hmem, ht, htest.2⟩

theorem Summed.subtree (hs : px.Summed) (hi : px.Pending i) (c : Counter) :
    pubSubtreeCounters px (px.cat i).db c =
      ((px.cat i).db.nested.map fun n => n.2.selfSum c).sum := by
  rw [pubSubtreeCounters]
  congr 1
  refine map_congr_left fun n hn => ?_
  cases hopen : pcOpenTotals px n.1 with
  | none => exact (hs.stored i hi n hn).here.casTotals c
  | some t =>
    obtain ⟨j, hj, ht, hm⟩ := pcOpenTotals_eq_some hopen
    exact hs.totals i hi n hn j (hs.live j hj (by simp [ht])) t ht hm c

theorem Summed.finalizeOne (hs : px.Summed) (hk : px.Pending k) :
    CountedTree (px.cat k).mount ((pubFinalizeOne px k).cat k).db ∧
      ∀ t, ((pubFinalizeOne px k).cat k).tot = some t →
        ∀ c, t c = ((pubFinalizeOne px k).cat k).db.selfSum c := by
  have hcounted : ((pubFinalizeOne px k).cat k).db.Counted := by
    rw [pubFinalizeOne, modify_cat_self]
    refine ⟨?_, fun c => hs.subtree hk c⟩
    funext c
    cases c <;> rfl
  refine ⟨.mk hcounted fun n hn => hs.stored k hk n ?_, fun t ht c => ?_⟩
  · rw [pubFinalizeOne, modify_cat_self] at hn
    exact hn
  · rw [← hcounted.casTotals c, pcCasTotals]
    rw [pubFinalizeOne, modify_cat_self] at ht ⊢
    cases ht
    rfl

/-! ## The loop -/

theorem pubPick_eq_some (h : pubPick px = some k) :
    k < px.count ∧ (px.cat k).writing = true := by
  rw [pubPick] at h
  refine foldlRecOn (motive := fun pick => ∀ i, pick = some i →
    i < px.count ∧ (px.cat i).writing = true) _ _ (fun _ hi => by cases hi) ?_ k h
  intro pick hpick i hi j hj
  have hlt := mem_range.mp hi
  split at hj
  · next hw =>
    split at hj
    · cases hj
      exact ⟨hlt, hw⟩
    · split at hj
      · cases hj
        exact ⟨hlt, hw⟩
      · exact hpick j hj
  · exact hpick j hj

theorem discard_cat (px : Ctx) (i : ℕ) : (pubDiscard px).cat i = px.cat i ∨
    (pubDiscard px).cat i = { px.cat i with writing := false } ∧
      ((px.cat i).dropped = true ∨ (px.cat i).dirty = false) := by
  by_cases h : (px.cat i).dropped = true ∨ ¬(px.cat i).dirty = true
  · exact .inr ⟨if_pos h, h.imp id Bool.eq_false_of_not_eq_true⟩
  · exact .inl (if_neg h)

/-- Dropped catalogs are in no sum. -/
theorem Summed.discard (hs : px.Summed) : (pubDiscard px).Summed ∧
    ∀ i, i < px.count → ((pubDiscard px).cat i).writing = true → (pubDiscard px).Pending i := by
  have hfields : ∀ i, ((pubDiscard px).cat i).mount = (px.cat i).mount ∧
      ((pubDiscard px).cat i).parent = (px.cat i).parent ∧
      ((pubDiscard px).cat i).db = (px.cat i).db ∧
      ((pubDiscard px).cat i).tot = (px.cat i).tot ∧
      ((pubDiscard px).cat i).dropped = (px.cat i).dropped := fun i => by
    rcases discard_cat px i with he | ⟨he, -⟩ <;> rw [he] <;> simp
  have hlive : ∀ i, (pubDiscard px).Live i ↔ px.Live i := fun i => by
    rw [Live, Live, (hfields i).2.2.2.2]
    rfl
  have hpending : ∀ i, (pubDiscard px).Pending i → px.Pending i := fun i hi => by
    refine ⟨(hlive i).mp hi.1, ?_⟩
    have hw := hi.2
    rcases discard_cat px i with he | ⟨he, -⟩ <;> rw [he] at hw
    · exact hw
    · cases hw
  constructor
  · constructor
    · intro i j hi hj he
      rw [(hfields i).1, (hfields j).1] at he
      exact hs.distinct i j ((hlive i).mp hi) ((hlive j).mp hj) he
    · intro i hi n hn j hj he
      rw [(hfields i).2.2.1] at hn
      rw [(hfields j).1] at he
      rw [(hfields j).2.1]
      exact hs.owner i (hpending i hi) n hn j ((hlive j).mp hj) he
    · intro i hi n hn
      rw [(hfields i).2.2.1] at hn
      exact hs.stored i (hpending i hi) n hn
    · intro j hj htot
      rw [(hfields j).2.2.2.1] at htot
      exact (hlive j).mpr (hs.live j hj htot)
    · intro i hi n hn j hj t ht he
      rw [(hfields i).2.2.1] at hn
      rw [(hfields j).2.2.2.1] at ht
      rw [(hfields j).1] at he
      exact hs.totals i (hpending i hi) n hn j ((hlive j).mp hj) t ht he
  · intro i hi hw
    refine ⟨⟨hi, ?_⟩, hw⟩
    rw [(hfields i).2.2.2.2]
    rcases discard_cat px i with he | ⟨he, -⟩
    · by_contra hd
      have hpos : (pubDiscard px).cat i = { px.cat i with writing := false } :=
        if_pos (.inl (Bool.eq_true_of_not_eq_false hd))
      rw [hpos] at hw
      cases hw
    · rw [he] at hw
      cases hw

/-- A catalog is stored, and its parent knows its counters. -/
theorem Summed.step (hs : px.Summed) (hk : px.Pending k) {par : ℕ}
    (hpar : par = (px.cat k).parent.getD 0) (hne : par ≠ k) :
    ((pubFinalizeOne px k).modify par fun c =>
      c.wrote (c.db.setNested (px.cat k).mount ((pubFinalizeOne px k).cat k).db)).Summed := by
  obtain ⟨htree, htot⟩ := hs.finalizeOne hk
  generalize hdb : ((pubFinalizeOne px k).cat k).db = db at htree htot
  generalize hpx : ((pubFinalizeOne px k).modify par fun c =>
    c.wrote (c.db.setNested (px.cat k).mount db)) = px'
  -- what the two catalogs are now, and that no other has changed
  have hplace : ∀ i, (px'.cat i).mount = (px.cat i).mount ∧
      (px'.cat i).parent = (px.cat i).parent ∧ (px'.cat i).dropped = (px.cat i).dropped := fun i => by
    by_cases hi : i = par
    · rw [← hpx, hi, modify_cat_self, pubFinalizeOne, modify_cat_of_ne _ hne]
      exact ⟨rfl, rfl, rfl⟩
    · rw [← hpx, modify_cat_of_ne _ hi, pubFinalizeOne]
      by_cases hik : i = k
      · rw [hik, modify_cat_self]
        exact ⟨rfl, rfl, rfl⟩
      · rw [modify_cat_of_ne _ hik]
        exact ⟨rfl, rfl, rfl⟩
  have hlive : ∀ i, px'.Live i ↔ px.Live i := fun i => by
    rw [Live, Live, (hplace i).2.2, ← hpx]
    rfl
  have hpending : ∀ i, px'.Pending i → px.Pending i ∧ i ≠ k := fun i hi => by
    have hw := hi.2
    by_cases hik : i = k
    · rw [hik, ← hpx, modify_cat_of_ne _ (Ne.symm hne), pubFinalizeOne, modify_cat_self] at hw
      cases hw
    · refine ⟨⟨(hlive i).mp hi.1, ?_⟩, hik⟩
      by_cases hi' : i = par
      · rw [hi', ← hpx, modify_cat_self, pubFinalizeOne, modify_cat_of_ne _ hne] at hw
        rw [hi']
        exact hw
      · rw [← hpx, modify_cat_of_ne _ hi', pubFinalizeOne, modify_cat_of_ne _ hik] at hw
        exact hw
  have hnested : ∀ i, i ≠ k → ∀ n ∈ (px'.cat i).db.nested,
      (i = par ∧ n = ((px.cat k).mount, db)) ∨
        n ∈ (px.cat i).db.nested ∧ (i = par → n.1 ≠ (px.cat k).mount) := fun i hik n hn => by
    by_cases hi : i = par
    · rw [hi, ← hpx, modify_cat_self, pubFinalizeOne, modify_cat_of_ne _ hne] at hn
      refine (Keyed.mem_replace.mp hn).imp (fun he => ⟨hi, he⟩) fun h => ?_
      rw [hi]
      exact ⟨h.1, fun _ => h.2⟩
    · rw [← hpx, modify_cat_of_ne _ hi, pubFinalizeOne, modify_cat_of_ne _ hik] at hn
      exact .inr ⟨hn, fun he => absurd he hi⟩
  have htots : ∀ j, j ≠ k → (px'.cat j).tot = (px.cat j).tot := fun j hjk => by
    by_cases hj : j = par
    · rw [← hpx, hj, modify_cat_self, pubFinalizeOne, modify_cat_of_ne _ hne]
      rfl
    · rw [← hpx, modify_cat_of_ne _ hj, pubFinalizeOne, modify_cat_of_ne _ hjk]
  have htotk : (px'.cat k).tot = ((pubFinalizeOne px k).cat k).tot := by
    rw [← hpx, modify_cat_of_ne _ (Ne.symm hne)]
  constructor
  · intro i j hi hj he
    rw [(hplace i).1, (hplace j).1] at he
    exact hs.distinct i j ((hlive i).mp hi) ((hlive j).mp hj) he
  · intro i hi n hn j hj he
    obtain ⟨hi, hik⟩ := hpending i hi
    have hj := (hlive j).mp hj
    rw [(hplace j).1] at he
    rw [(hplace j).2.1]
    rcases hnested i hik n hn with ⟨rfl, rfl⟩ | ⟨hold, -⟩
    · rw [hs.distinct j k hj hk.1 he, hpar]
    · exact hs.owner i hi n hold j hj he
  · intro i hi n hn
    obtain ⟨hi, hik⟩ := hpending i hi
    rcases hnested i hik n hn with ⟨-, rfl⟩ | ⟨hold, -⟩
    · exact htree
    · exact hs.stored i hi n hold
  · intro j hj hsome
    rw [hlive]
    by_cases hjk : j = k
    · rw [hjk]
      exact hk.1
    · rw [htots j hjk] at hsome
      exact hs.live j (by rw [← hpx] at hj; exact hj) hsome
  · intro i hi n hn j hj t ht he c
    obtain ⟨hi, hik⟩ := hpending i hi
    have hj := (hlive j).mp hj
    rw [(hplace j).1] at he
    by_cases hjk : j = k
    · rw [hjk] at ht he
      rw [htotk] at ht
      rcases hnested i hik n hn with ⟨-, rfl⟩ | ⟨hold, hother⟩
      · exact htot t ht c
      · have hpk := hs.owner i hi n hold k hk.1 he
        refine absurd he.symm (hother ?_)
        rw [hpar, hpk]
    · rw [htots j hjk] at ht
      rcases hnested i hik n hn with ⟨-, rfl⟩ | ⟨hold, -⟩
      · exact absurd (hs.distinct j k hj hk.1 he) hjk
      · exact hs.totals i hi n hold j hj t ht he c

/-- **Storing** all catalogs from below leaves exact counters. -/
theorem Summed.finalize {rounds : ℕ} (hs : px.Summed) (h : pubFinalize rounds px = some out) :
    CountedTree [] out := by
  induction rounds generalizing px with
  | zero => cases h
  | succ rounds ih =>
    obtain ⟨hd, hpending⟩ := hs.discard
    rw [pubFinalize] at h
    dsimp only at h
    split at h
    · cases h
    · next k hpick =>
      obtain ⟨hlt, hw⟩ := pubPick_eq_some hpick
      have hk := hpending k hlt hw
      have hmount : ((pubFinalizeOne (pubDiscard px) k).cat k).mount =
          ((pubDiscard px).cat k).mount := by
        rw [pubFinalizeOne, modify_cat_self]
      have hparent : ((pubFinalizeOne (pubDiscard px) k).cat k).parent =
          ((pubDiscard px).cat k).parent := by
        rw [pubFinalizeOne, modify_cat_self]
      rw [hmount, hparent] at h
      split at h
      · next hroot =>
        cases h
        exact hroot ▸ (hd.finalizeOne hk).1
      · split at h
        · next hwp =>
          refine ih (hd.step hk rfl fun he => ?_) h
          rw [he, pubFinalizeOne, modify_cat_self] at hwp
          cases hwp
        · cases h

end Ctx

end BrixCache.Publish

/-! ## Statistics of a publish -/

namespace BrixCache.Publish

open Mounts List

variable {env : Env} {pat : List Bytes} {chunkSize : ℕ} {root out : Catalog}
  {cs : List Change} {px px' : Ctx} {dt : Dirtab}

/-! ### A publish -/

theorem Ctx.Sound.pubDirtabApply {Q : Path → Catalog → Prop}
    (h : EachCatalog (fun m c => c.Layer m ∧ Q m c) [] root) (hg : Ctx.SplitsGlobbed env dt root)
    (hrun : pubDirtabApply env dt (pubStart root) = some px) : px.Sound Q := by
  have hs := Ctx.sound_pubStart h
  rw [Publish.pubDirtabApply] at hrun
  split at hrun
  · cases hrun
    exact hs
  · have hcat : (pubStart root).cat 0 = ⟨[], some root, root, true, none, false, false, none⟩ :=
      Ctx.register_cat_self ..
    rw [hcat] at hrun
    obtain ⟨rd, hrd, hwalk⟩ := Option.bind_eq_some_iff.mp hrun
    cases hrd
    refine (hs.dtWalk h.here.1 hg (fun name => ?_) hwalk).1
    have hmounts : ∀ q ∈ (pubStart root).mounts, q = [] := by
      rintro q ⟨i, hi, rfl⟩
      rw [Nat.lt_one_iff.mp hi.1, hcat]
    refine ⟨⟨hs.root.1, ?_, fun n hn hu => ?_⟩, fun q hq hpre => ?_, fun n hn _ => ?_, fun o ho => ?_⟩
    · rw [hcat]
      exact over_snoc_of_mem (.inl rfl)
    · rw [hcat] at hn
      have hnil : n.1 = [] := prefix_nil.mp (under_snoc_iff.mp hu)
      exact not_under_nil (hnil ▸ (h.here.1.nested n hn).1)
    · rw [hmounts q hq] at hpre
      simp at hpre
    · rw [hcat] at hn
      exact hn
    · rw [hcat] at ho
      exact (Option.some.inj ho).symm

/-- The condition under which statistics stay exact. Where a directory is split, or a change deletes
what is below its path, SQLite's pattern selects the nested rows there; and before no change is a
catalog open where the change is to make a fresh one. -/
structure CountsKept (env : Env) (pat : List Bytes) (chunkSize : ℕ) (root : Catalog)
    (cs : List Change) : Prop where
  splits : Ctx.SplitsGlobbed env (pubDirtabMarkers pat cs) root
  changes : ∀ pre ch rest px, cs = pre ++ ch :: rest →
    ((pubDirtabApply env (pubDirtabMarkers pat cs) (pubStart root)).bind fun px =>
      pubApply env (pubDirtabMarkers pat cs) chunkSize px pre) = some px →
    px.Free env (pubDirtabMarkers pat cs) ch ∧ px.Globs env ch

theorem Ctx.Sound.pubApply {Q : Path → Catalog → Prop} (hs : px.Sound Q)
    (hpaths : ∀ ch ∈ cs, ch.path ≠ [])
    (hkept : ∀ pre ch rest px', cs = pre ++ ch :: rest →
      pubApply env dt chunkSize px pre = some px' → px'.Free env dt ch ∧ px'.Globs env ch)
    (h : pubApply env dt chunkSize px cs = some px') : px'.Sound Q := by
  induction cs generalizing px with
  | nil =>
    cases h
    exact hs
  | cons ch cs ih =>
    rw [Publish.pubApply, foldlM_cons] at h
    obtain ⟨mid, hmid, h⟩ := Option.bind_eq_some_iff.mp h
    obtain ⟨hfree, hglobs⟩ := hkept [] ch cs px rfl rfl
    have hone := hs.pubApplyOne (hpaths ch mem_cons_self) hfree hglobs hmid
    refine ih hone (fun ch' h' => hpaths ch' (mem_cons_of_mem _ h'))
      (fun pre ch' rest px₁ he hpre => ?_) h
    refine hkept (ch :: pre) ch' rest px₁ (by rw [he, cons_append]) ?_
    rw [Publish.pubApply, foldlM_cons]
    exact Option.bind_eq_some_iff.mpr ⟨mid, hmid, hpre⟩

/-- **Statistics are exact after a publish**: every catalog of the new tree counts its own rows, and
sums up what the catalogs below it count, where the tree did so before and no catalog is open where
a fresh one is made. -/
theorem publish_statistics_exact (htree : EachCatalog (fun m c => c.Layer m) [] root)
    (hcounted : EachCatalog (fun _ c => c.Counted) [] root) (hpaths : ∀ ch ∈ cs, ch.path ≠ [])
    (hkept : CountsKept env pat chunkSize root cs)
    (hrun : pubRunPipeline env pat chunkSize root cs = some out) :
    EachCatalog (fun _ c => c.Counted) [] out := by
  obtain ⟨px, hpx, hrun⟩ := Option.bind_eq_some_iff.mp hrun
  obtain ⟨px', hpx', hrun⟩ := Option.bind_eq_some_iff.mp hrun
  have hs : px.Sound _ := Ctx.Sound.pubDirtabApply (htree.and hcounted) hkept.splits hpx
  have hs' := hs.pubApply hpaths (fun pre ch rest px₁ he hpre => hkept.changes pre ch rest px₁ he
    (Option.bind_eq_some_iff.mpr ⟨px, hpx, hpre⟩)) hpx'
  exact hs'.summed.finalize hrun

/-! ### A file that is added, and a directory that is nested twice -/

/-- The rules match a path that is written out, and an object has the length of its content for a
name. -/
def plainEnv : Env where
  fnmatch := fun pat path => decide (pat = path.flatMap fun name => 47 :: name)
  glob := fun p q => decide (p <+: q ∧ p ≠ q)
  objectHash := fun bs => ⟨replicate 20 (UInt8.ofNat bs.length), by simp⟩

def plainRow (path : Path) (flags : UInt32) : Row :=
  ⟨path, flags, 0, 5, 0, 0, 0, 1, 0, [], none, []⟩

/-- The directory `/d` with a file in it, in one catalog -/
def flatRoot : Catalog :=
  ({ Catalog.empty with
    rows := [plainRow [] flagDir, plainRow [ascii "d"] flagDir,
      plainRow [ascii "d", ascii "f"] flagFile] } : Catalog).updateCounters

/-- The file of the directory in a catalog of its own -/
def nestedDir : Catalog :=
  ({ Catalog.empty with
    rows := [plainRow [ascii "d"] (flagDir ||| flagDirNestedRoot),
      plainRow [ascii "d", ascii "f"] flagFile] } : Catalog).updateCounters

def nestedRoot : Catalog :=
  { ({ Catalog.empty with
      rows := [plainRow [] flagDir, plainRow [ascii "d"] (flagDir ||| flagDirNestedMount)]
      nested := [([ascii "d"], nestedDir)] } : Catalog).updateCounters with
    subtree := nestedDir.self }

theorem eachCatalog_flatRoot :
    EachCatalog (fun m c => c.Layer m) [] flatRoot ∧
      EachCatalog (fun _ c => c.Counted) [] flatRoot := by
  have hnil : ∀ n ∈ flatRoot.nested, False := fun n hn => by cases hn
  refine ⟨.mk ?_ fun n hn => (hnil n hn).elim, .mk ⟨rfl, fun _ => rfl⟩ fun n hn => (hnil n hn).elim⟩
  exact ⟨⟨by decide, by decide, by decide⟩, by decide, by decide, by decide, by decide, by decide,
    by decide, fun n hn => (hnil n hn).elim⟩

/-- A file is added behind a mount point. -/
def addBehind : List Change :=
  [{ op := .addDir false false, path := [ascii "d"] },
    { op := .addFile (some [1, 2]), path := [ascii "d", ascii "x"] }]

theorem eachCatalog_nestedRoot :
    EachCatalog (fun m c => c.Layer m) [] nestedRoot ∧
      EachCatalog (fun _ c => c.Counted) [] nestedRoot := by
  have hone : ∀ n ∈ nestedRoot.nested, n = ([ascii "d"], nestedDir) := fun n hn =>
    mem_singleton.mp hn
  have hnil : ∀ n ∈ nestedDir.nested, False := fun n hn => by cases hn
  have hdir : nestedDir.Layer [ascii "d"] :=
    ⟨⟨by decide, by decide, by decide⟩, by decide, by decide, by decide, by decide, by decide,
      by decide, fun n hn => (hnil n hn).elim⟩
  have hcounted : nestedDir.Counted := ⟨rfl, fun _ => rfl⟩
  refine ⟨.mk ?_ fun n hn => ?_, .mk ⟨?_, fun k => ?_⟩ fun n hn => ?_⟩
  · refine ⟨⟨by decide, by decide, by decide⟩, by decide, by decide, by decide, by decide,
      by decide, fun r hr _ hm => ⟨_, mem_singleton_self _, ?_⟩, fun n hn => ?_⟩
    · revert r
      decide
    · rw [hone n hn]
      exact ⟨by decide, plainRow [ascii "d"] (flagDir ||| flagDirNestedMount), by decide, rfl, rfl⟩
  · rw [hone n hn]
    exact .mk hdir fun n hn => (hnil n hn).elim
  · funext k
    cases k <;> rfl
  · have hsum : nestedDir.selfSum k = nestedDir.self k := by
      rw [Catalog.selfSum_eq]
      exact Int.add_zero _
    exact (hsum ▸ (Int.add_zero _).symm : nestedDir.self k = nestedDir.selfSum k + 0)
  · rw [hone n hn]
    exact .mk hcounted fun n hn => (hnil n hn).elim

theorem countsKept_addBehind : CountsKept plainEnv [] 4096 nestedRoot addBehind where
  splits := fun r hr _ _ _ hnest => by
    have hno : ∀ r ∈ nestedRoot.rows,
        pubDirtabNewNests plainEnv (pubDirtabMarkers [] addBehind) r.path = false := by decide
    rw [hno r hr] at hnest
    cases hnest
  changes := fun pre ch rest px he _ => by
    have hmem : ch ∈ addBehind := he ▸ mem_append_right pre mem_cons_self
    have hno : ∀ ch ∈ addBehind,
        pubDirtabNewNests plainEnv (pubDirtabMarkers [] addBehind) ch.path = false := by decide
    refine ⟨fun _ _ _ _ _ hnest => ?_, fun _ _ _ _ n _ hu => decide_eq_true hu⟩
    rw [hno ch hmem] at hnest
    cases hnest

/-- With a file added behind a mount point, both catalogs count it. -/
theorem publish_statistics_exact_addBehind : ∃ out,
    pubRunPipeline plainEnv [] 4096 nestedRoot addBehind = some out ∧
      EachCatalog (fun _ c => c.Counted) [] out ∧ out.subtree .regular = 2 := by
  have hrun : (pubRunPipeline plainEnv [] 4096 nestedRoot addBehind).map
      (fun c => c.subtree .regular) = some 2 := by decide +kernel
  obtain ⟨out, hout, hsub⟩ := Option.map_eq_some_iff.mp hrun
  refine ⟨out, hout, publish_statistics_exact eachCatalog_nestedRoot.1 eachCatalog_nestedRoot.2 ?_
    countsKept_addBehind hout, hsub⟩
  decide

/-- A directory that the rules have just split off is replaced by one that they nest: the root sums
up what was split off. -/
theorem not_publish_statistics_exact : ¬∀ env pat chunkSize root cs out,
    EachCatalog (fun m c => c.Layer m) [] root → EachCatalog (fun _ c => c.Counted) [] root →
      (∀ ch ∈ cs, ch.path ≠ []) → pubRunPipeline env pat chunkSize root cs = some out →
        EachCatalog (fun _ c => c.Counted) [] out := by
  intro hall
  have hrun : (pubRunPipeline plainEnv [ascii "/d"] 4096 flatRoot
      [{ op := .addDir true false, path := [ascii "d"] }]).map
        (fun c => (c.subtree .regular, c.nested.map fun n => (n.2.self .regular, n.2.nested.length))) =
      some (1, [(0, 0)]) := by decide +kernel
  obtain ⟨out, hout, hcounts⟩ := Option.map_eq_some_iff.mp hrun
  obtain ⟨hsub, hnested⟩ := Prod.mk.inj hcounts
  have hcounted := (hall _ _ _ _ _ out eachCatalog_flatRoot.1 eachCatalog_flatRoot.2 (by decide)
    hout).here.2 .regular
  obtain ⟨n, hn, hcount⟩ := map_eq_singleton_iff.mp hnested
  obtain ⟨hself, hlen⟩ := Prod.mk.inj hcount
  rw [hsub, hn, map_singleton, sum_singleton, Catalog.selfSum_eq, hself,
    length_eq_zero_iff.mp hlen] at hcounted
  exact absurd hcounted (by decide)

end BrixCache.Publish
