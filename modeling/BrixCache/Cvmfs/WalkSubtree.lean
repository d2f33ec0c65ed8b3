import BrixCache.Cvmfs.CatalogWalk

/-!
# Walking a part of a repository

A walk of a part goes from the root catalog to the catalog of its path, through each catalog that
is mounted on the way (`catalogFrom`). What the path reaches there is what the root reaches below
the path (`reached_catalogFrom_iff`), so a walk of a part that opens its catalogs reports that, and
neither the file nor the catalog at the path itself (`walk_complete`).
-/

namespace BrixCache.CatalogWalk

open BrixCache.Publish List

variable {env : Env} {R : Repository} {h cat root : CvmfsHash} {d p q m path front rest : Path}
  {w w' : State} {it : Item} {n : ℕ} {opened : List CvmfsHash} {maxDepth : ℤ}

/-- The catalog that owns a path, reached through its mounts. -/
def catalogFrom (tables : CvmfsHash → Tables) : Path → Path → CvmfsHash → CvmfsHash
  | _, [], cat => cat
  | front, name :: rest, cat =>
    catalogFrom tables (front ++ [name]) rest
      (((tables cat).nestedAt (front ++ [name])).elim cat Prod.fst)

theorem catalogFrom_snoc (tables : CvmfsHash → Tables) (front rest : Path) (name : Bytes)
    (cat : CvmfsHash) : catalogFrom tables front (rest ++ [name]) cat =
      ((tables (catalogFrom tables front rest cat)).nestedAt (front ++ rest ++ [name])).elim
        (catalogFrom tables front rest cat) Prod.fst := by
  induction rest generalizing front cat with
  | nil => simp [catalogFrom]
  | cons a rest ih =>
    rw [cons_append, catalogFrom, catalogFrom, ih]
    simp

/-! ## What a path reaches -/

theorem Reached.of_front {tables : CvmfsHash → Tables} (hit : Reached tables cat front it)
    (hunder : front ++ rest <+: it.path) (hbelow : (front ++ rest).length < it.path.length) :
    Reached tables (catalogFrom tables front rest cat) (front ++ rest) it := by
  induction rest generalizing front cat with
  | nil => simpa [catalogFrom] using hit
  | cons a rest ih =>
    have hassoc : front ++ a :: rest = front ++ [a] ++ rest := by simp
    rw [hassoc] at hunder hbelow ⊢
    rw [catalogFrom]
    -- an entry on the way is the one that the path names
    have hentry : ∀ {r : Row}, r ∈ (tables cat).children front → r.path <+: it.path →
        r.path = front ++ [a] := fun {r} hr hpre => by
      obtain ⟨name, -, hpath⟩ := eq_snoc_of_mem_children hr
      have hlen : r.path.length = (front ++ [a]).length := by simp [hpath]
      exact List.IsPrefix.eq_of_length
        (prefix_of_prefix_length_le hpre ((prefix_append _ rest).trans hunder)
          (Nat.le_of_eq hlen)) hlen
    have hself : ∀ {r : Row}, r ∈ (tables cat).children front → it.path = r.path → False :=
      fun {r} hr hpath => by
        have hr' := hentry hr (hpath ▸ prefix_refl _)
        rw [hpath, hr'] at hbelow
        simp at hbelow
    cases hit with
    | file hr _ _ _ | chunk hr _ _ _ | catalog hr _ _ _ => exact (hself hr rfl).elim
    | inCatalog hr _ _ hnested hbelow' | inDir hr _ _ hnested hbelow' =>
      have hpath := hentry hr hbelow'.under.1
      rw [hpath] at hnested hbelow'
      rw [hnested]
      exact ih hbelow' hunder hbelow

theorem mounted_catalogFrom (R : Repository) (path : Path) : ∃ n m,
    Mounted R.tables R.root n (catalogFrom R.tables [] path R.root) m ∧ m <+: path := by
  induction path using reverseRecOn with
  | nil => exact ⟨0, [], .root, prefix_refl _⟩
  | append_singleton path name ih =>
    obtain ⟨n, m, hm, hpre⟩ := ih
    rw [catalogFrom_snoc, nil_append]
    cases hnested : (R.tables (catalogFrom R.tables [] path R.root)).nestedAt (path ++ [name]) with
    | none => exact ⟨n, m, hm, hpre.trans (prefix_append _ _)⟩
    | some x =>
      exact ⟨n + 1, path ++ [name], .nested hm (mem_nested hnested), prefix_refl _⟩

/-- What is reached below an entry is reached from the root. -/
theorem Reached.of_entry {r : Row}
    (hr : r ∈ (R.tables (catalogFrom R.tables [] path R.root)).rows) (hne : r.path ≠ [])
    (hparent : r.path.dropLast = path)
    (hit : Reached R.tables (catalogFrom R.tables [] path R.root) path it) :
    Reached R.tables R.root [] it := by
  induction path using reverseRecOn generalizing r with
  | nil => simpa [catalogFrom] using hit
  | append_singleton path name ih =>
    have hsnoc := catalogFrom_snoc R.tables [] path name R.root
    rw [nil_append] at hsnoc
    cases hnested : (R.tables (catalogFrom R.tables [] path R.root)).nestedAt (path ++ [name]) with
    | none =>
      -- the row of the directory is in the same catalog
      rw [hnested, Option.elim] at hsnoc
      rw [hsnoc] at hr hit
      obtain ⟨n, m, hm, hpre⟩ := mounted_catalogFrom R path
      have hpath : r.path ≠ m := fun he => by
        have hle := hpre.length_le
        rw [← he] at hle
        have hlen := congrArg length hparent
        rw [length_dropLast, length_append, length_singleton] at hlen
        omega
      obtain ⟨-, p, hp, hpp, hdir, hfile⟩ := R.rooted n _ m hm r hr hpath
      rw [hparent] at hpp
      have hchild : p ∈ (R.tables (catalogFrom R.tables [] path R.root)).children path :=
        mem_children.mpr ⟨hp, by simp [hpp], by simp [hpp]⟩
      refine ih hp (by simp [hpp]) (by simp [hpp]) (.inDir hchild hfile hdir ?_ ?_)
      · rw [hpp]
        exact hnested
      · rw [hpp]
        exact hit
    | some x =>
      -- the row of the mount point is in the catalog above
      obtain ⟨h, size⟩ := x
      rw [hnested, Option.elim] at hsnoc
      rw [hsnoc] at hit
      obtain ⟨n, m, hm, -⟩ := mounted_catalogFrom R path
      obtain ⟨-, p, hp, hpp, hdir, hfile⟩ := R.mounts n _ m hm _ (mem_nested hnested)
      have hpp : p.path = path ++ [name] := hpp
      have hchild : p ∈ (R.tables (catalogFrom R.tables [] path R.root)).children path :=
        mem_children.mpr ⟨hp, by simp [hpp], by simp [hpp]⟩
      have hmount : (R.tables (catalogFrom R.tables [] path R.root)).nestedAt p.path =
          some (h, size) := by
        rw [hpp]
        exact hnested
      refine ih hp (by simp [hpp]) (by simp [hpp]) (.inCatalog hchild hfile hdir hmount ?_)
      rw [hpp]
      exact hit

theorem reached_catalogFrom_iff (R : Repository) (path : Path) (it : Item) :
    Reached R.tables (catalogFrom R.tables [] path R.root) path it ↔
      Reached R.tables R.root [] it ∧ path <+: it.path ∧ path.length < it.path.length := by
  constructor
  · intro hit
    obtain ⟨r, hr, -⟩ := reached_iff.mp hit
    obtain ⟨hrow, hne, hparent⟩ := mem_children.mp hr
    exact ⟨.of_entry hrow hne hparent hit, hit.under⟩
  · rintro ⟨hit, hunder, hbelow⟩
    have hunder' : [] ++ path <+: it.path := hunder
    exact hit.of_front hunder' hbelow

/-! ## The walk of a part -/

namespace Walking

variable (hw : Walking R env maxDepth)

include hw

theorem descend_eq (hlen : Path.textLen (front ++ rest) < walkMaxPath) :
    ∃ opened',
      (env.descend front rest cat opened = (none, opened') ∧ ∃ h, Opening env opened' h false) ∨
        env.descend front rest cat opened =
          (some (catalogFrom R.tables front rest cat), opened') := by
  induction rest generalizing front cat opened with
  | nil => exact ⟨opened, .inr rfl⟩
  | cons name rest ih =>
    have hassoc : front ++ name :: rest = front ++ [name] ++ rest := by simp
    rw [hassoc] at hlen
    have hshort : Path.textLen (front ++ [name]) < walkMaxPath := by
      have hsplit : Path.textLen (front ++ [name] ++ rest) =
          Path.textLen (front ++ [name]) + Path.textLen rest := by
        simp only [Path.textLen, map_append, sum_append]
      omega
    simp only [Env.descend, if_neg (Nat.not_le.mpr hshort), hw.nestedAt_eq, catalogFrom]
    cases hnested : (R.tables cat).nestedAt (front ++ [name]) with
    | none => exact ih hlen
    | some x =>
      by_cases hopens : env.io.opens opened x.1 = true
      · simp only [hopens, if_true]
        exact ih hlen
      · simp only [hopens, Bool.false_eq_true, if_false]
        exact ⟨_, .inl ⟨rfl, x.1, opened, prefix_refl _, Bool.eq_false_iff.mpr hopens⟩⟩

/-- **A part that fits**: unless a catalog was not opened the walk returns 0 and reports what is
reached below the path. -/
theorem walkSubtree (hne : path ≠ []) (hlen : path.textLen < walkMaxPath) :
    Complete env (env.walkSubtree R.root path maxDepth) fun it =>
      Reached R.tables R.root [] it ∧ path <+: it.path ∧ path.length < it.path.length := by
  rw [Env.walkSubtree, if_neg hne]
  by_cases hroot : env.io.opens [] R.root = true
  · rw [if_pos hroot]
    have hlen' : Path.textLen ([] ++ path) < walkMaxPath := hlen
    obtain ⟨opened, ⟨hnone, hio⟩ | hsome⟩ : ∃ opened,
        (env.descend [] path R.root [R.root] = (none, opened) ∧ ∃ h, Opening env opened h false) ∨
          env.descend [] path R.root [R.root] =
            (some (catalogFrom R.tables [] path R.root), opened) := hw.descend_eq hlen'
    · rw [hnone]
      exact .inl ⟨rfl, hio⟩
    · rw [hsome]
      obtain ⟨n, m, hm, -⟩ := mounted_catalogFrom R path
      have hwalks : Walks env { State.init with opened := opened } (env.walkDir Env.walkLevels
          (catalogFrom R.tables [] path R.root) path maxDepth { State.init with opened := opened })
          (Reached R.tables (catalogFrom R.tables [] path R.root) path) :=
        hw.walkDir hm (by omega) (by simp [Env.walkLevels]) rfl rfl
      exact (hwalks.congr (reached_catalogFrom_iff R path)).complete rfl
  · rw [if_neg hroot]
    exact .inl ⟨rfl, R.root, [], prefix_refl _, Bool.eq_false_iff.mpr hroot⟩

end Walking

theorem descend_of_long (hlen : walkMaxPath ≤ Path.textLen (front ++ rest)) (hne : rest ≠ []) :
    (env.descend front rest cat opened).1 = none := by
  induction rest generalizing front cat opened with
  | nil => exact absurd rfl hne
  | cons name rest ih =>
    have hassoc : front ++ name :: rest = front ++ [name] ++ rest := by simp
    rw [hassoc] at hlen
    simp only [Env.descend]
    split
    · rfl
    · next hshort =>
      have hrest : rest ≠ [] := by
        rintro rfl
        rw [append_nil] at hlen
        exact hshort hlen
      split
      · split
        · exact ih hlen hrest
        · rfl
      · exact ih hlen hrest

theorem walkSubtree_of_long (hne : path ≠ []) (hlen : walkMaxPath ≤ path.textLen) :
    (env.walkSubtree root path maxDepth).1 = -1 := by
  have hlen' : walkMaxPath ≤ Path.textLen ([] ++ path) := hlen
  have hnone : (env.descend [] path root [root]).1 = none := descend_of_long hlen' hne
  rw [Env.walkSubtree, if_neg hne]
  split
  · split
    · rfl
    · next h => cases (congrArg Prod.fst h).symm.trans hnone
  · rfl

/-- **A walk that reports success is complete.** A repository whose names and paths fit in the
buffers, with catalogs `maxDepth` deep at most, and readers that do not fail: the walk of the whole
returns 0 when it could open its catalogs, -1 otherwise, and at 0 its items are the root catalog and
what it reaches, each catalog among them opened. The walk of a part does the same with what is
reached below its path, and refuses a path that does not fit. -/
theorem walk_complete (R : Repository) (env : Env) (maxDepth : ℤ) (hw : Walking R env maxDepth) :
    Complete env (env.walkCatalog R.root maxDepth)
        (fun it => it = catalogItem R.root 0 [] ∨ Reached R.tables R.root [] it) ∧
      ∀ path : Path, path ≠ [] →
        (walkMaxPath ≤ path.textLen ∧ (env.walkSubtree R.root path maxDepth).1 = -1) ∨
        Complete env (env.walkSubtree R.root path maxDepth) fun it =>
          Reached R.tables R.root [] it ∧ path <+: it.path ∧ path.length < it.path.length := by
  refine ⟨hw.walkCatalog, fun path hne => ?_⟩
  rcases Nat.lt_or_ge path.textLen walkMaxPath with hlen | hlen
  · exact .inr (hw.walkSubtree hne hlen)
  · exact .inl ⟨hlen, walkSubtree_of_long hne hlen⟩

/-! ## A small repository -/

/-- The hash whose bytes are all `x` -/
def flatHash (x : UInt8) : CvmfsHash := ⟨.sha1, .replicate x⟩

def plainRow (p : Path) (flags : UInt32) (hash : Option CvmfsDigest) : Row :=
  ⟨p, flags, 0, 1, 0, 0, 0, 1, 0, [], hash, []⟩

/-- A catalog with the file `/f` and, mounted at `/n`, one with `/n/g` and `/n/c`, a file in two
chunks -/
def twoCatalogs (h : CvmfsHash) : Tables :=
  if h = flatHash 1 then
    ⟨[plainRow [ascii "n"] flagDir none,
      plainRow [ascii "n", ascii "g"] flagFile (some (flatHash 3).digest),
      plainRow [ascii "n", ascii "c"] (flagFile ||| flagFileChunk) none],
      [⟨[ascii "n", ascii "c"], 4, 1, (flatHash 5).digest⟩,
        ⟨[ascii "n", ascii "c"], 0, 4, (flatHash 4).digest⟩], []⟩
  else
    ⟨[plainRow [ascii "f"] flagFile (some (flatHash 2).digest), plainRow [] flagDir none,
      plainRow [ascii "n"] (flagDir ||| flagDirNestedMount) none], [],
      [([ascii "n"], some (flatHash 1), 9)]⟩

theorem mounted_twoCatalogs (hm : Mounted twoCatalogs (flatHash 0) n cat m) :
    (n = 0 ∧ cat = flatHash 0 ∧ m = []) ∨ (n = 1 ∧ cat = flatHash 1 ∧ m = [ascii "n"]) := by
  induction hm with
  | root => exact .inl ⟨rfl, rfl, rfl⟩
  | nested _ hmem ih =>
    rcases ih with ⟨rfl, rfl, rfl⟩ | ⟨rfl, rfl, rfl⟩
    · have hnested : (twoCatalogs (flatHash 0)).nested = [([ascii "n"], some (flatHash 1), 9)] := by
        decide
      rw [hnested, mem_singleton] at hmem
      obtain ⟨rfl, hrest⟩ := Prod.mk.inj hmem
      obtain ⟨hhash, -⟩ := Prod.mk.inj hrest
      exact .inr ⟨rfl, Option.some.inj hhash, rfl⟩
    · have hnested : (twoCatalogs (flatHash 1)).nested = [] := by decide
      rw [hnested] at hmem
      cases hmem

def twoRepository : Repository where
  root := flatHash 0
  tables := twoCatalogs
  rooted := fun n cat m hm => by
    rcases mounted_twoCatalogs hm with ⟨-, rfl, rfl⟩ | ⟨-, rfl, rfl⟩ <;> decide
  mounts := fun n cat m hm => by
    rcases mounted_twoCatalogs hm with ⟨-, rfl, rfl⟩ | ⟨-, rfl, rfl⟩ <;> decide
  named := fun n cat m hm => by
    rcases mounted_twoCatalogs hm with ⟨-, rfl, rfl⟩ | ⟨-, rfl, rfl⟩ <;> decide

/-- A walk of it in which nothing fails -/
def twoEnv : Env :=
  ⟨twoCatalogs, ⟨fun _ _ => none, fun _ _ => none, fun _ _ => false, fun _ _ => true⟩,
    fun _ _ => false, false⟩

theorem walking_two : Walking twoRepository twoEnv 1 where
  tables := rfl
  fits := fun n cat m hm => by
    rcases mounted_twoCatalogs hm with ⟨-, rfl, rfl⟩ | ⟨-, rfl, rfl⟩ <;> decide
  depth := fun n h m hm => by
    rcases mounted_twoCatalogs hm with ⟨rfl, -, -⟩ | ⟨rfl, -, -⟩ <;> decide
  reads := ⟨fun _ _ => rfl, fun _ _ => rfl, fun _ _ => rfl⟩
  never := fun _ _ => rfl
  mode := rfl

theorem complete_two {r : ℤ × State} {P : Item → Prop} (h : Complete twoEnv r P) :
    r.1 = 0 ∧ ∀ it, it ∈ r.2.items ↔ P it := by
  obtain ⟨-, _, _, _, hno⟩ | ⟨hrc, hall⟩ := h
  · cases hno
  · exact ⟨hrc, fun it => (hall it).1⟩

/-- What the walks of the small repository and of the part at `/n` report -/
theorem walk_complete_two :
    ((twoEnv.walkCatalog (flatHash 0) 1).1 = 0 ∧
      ∀ it, it ∈ (twoEnv.walkCatalog (flatHash 0) 1).2.items ↔
        it = catalogItem (flatHash 0) 0 [] ∨ Reached twoCatalogs (flatHash 0) [] it) ∧
    (twoEnv.walkSubtree (flatHash 0) [ascii "n"] 1).1 = 0 ∧
      ∀ it, it ∈ (twoEnv.walkSubtree (flatHash 0) [ascii "n"] 1).2.items ↔
        Reached twoCatalogs (flatHash 0) [] it ∧ [ascii "n"] <+: it.path ∧ 1 < it.path.length := by
  have h := walk_complete twoRepository twoEnv 1 walking_two
  refine ⟨complete_two h.1, ?_⟩
  rcases h.2 [ascii "n"] (by decide) with ⟨hlong, -⟩ | hpart
  · exact absurd hlong (by decide)
  · exact complete_two hpart

/-- The catalog that is mounted at the path of a part is at the path, and the walk of the part does
not report it. -/
theorem not_walkSubtree_at : ¬∀ (R : Repository) (env : Env) (maxDepth : ℤ),
    Walking R env maxDepth → ∀ path, (env.walkSubtree R.root path maxDepth).1 = 0 →
      ∀ it, it ∈ (env.walkSubtree R.root path maxDepth).2.items ↔
        (it = catalogItem R.root 0 [] ∨ Reached R.tables R.root [] it) ∧ path <+: it.path := by
  intro h
  have hne : [ascii "n"] ≠ [] := by decide
  obtain ⟨hrc, hall⟩ := complete_two (walking_two.walkSubtree hne (by decide))
  have hreached : Reached twoRepository.tables twoRepository.root []
      (catalogItem (flatHash 1) 9 [ascii "n"]) :=
    .catalog (r := plainRow [ascii "n"] (flagDir ||| flagDirNestedMount) none) (by decide)
      (by decide) (by decide) (by decide)
  have hmem := (h twoRepository twoEnv 1 walking_two [ascii "n"] hrc
    (catalogItem (flatHash 1) 9 [ascii "n"])).mpr ⟨.inr hreached, prefix_refl _⟩
  exact absurd ((hall _).mp hmem).2.2 (Nat.lt_irrefl _)

end BrixCache.CatalogWalk
