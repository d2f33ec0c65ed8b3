import BrixCache.Cvmfs.Catalog
import Mathlib.Data.List.Induction

/-!
# Walking a repository

`shared/cvmfs/walk/walk.c`: from a root catalog down through its directories, each catalog that is
mounted on the way fetched by its hash, each object that a row names given to a callback. Paths are
carried in a buffer, and what the readers return is not looked at. A walk is a function of what
can be fetched and read, and of what the callback says.
-/

namespace BrixCache.CatalogWalk

open BrixCache.Publish

/-! ## Catalogs -/

/-- The tables of a catalog as far as a walk reads them, a row of `nested_catalogs` with the hash
that its text is, if it is one, and its size -/
structure Tables : Type where
  rows : List Row
  chunks : List Chunk
  nested : List (Path × Option CvmfsHash × ℕ)

namespace Tables

def children (t : Tables) (p : Path) : List Row :=
  t.rows.filter fun r => r.path ≠ [] ∧ r.path.dropLast = p

def chunksOf (t : Tables) (p : Path) : List Chunk :=
  (t.chunks.filter fun ch => ch.path = p).mergeSort fun x y => x.offset ≤ y.offset

/-- The catalog that is mounted at a path -/
def nestedAt (t : Tables) (p : Path) : Option (CvmfsHash × ℕ) :=
  (Keyed.find Prod.fst p t.nested).bind fun n => n.2.1.map fun h => (h, n.2.2)

end Tables

/-- What goes wrong: how many rows the readers give before they fail, in a catalog and at a path,
and whether the opening of a catalog, a fetch that is verified, succeeds after those before it -/
structure Io : Type where
  readdir : CvmfsHash → Path → Option ℕ
  chunks : CvmfsHash → Path → Option ℕ
  nested : CvmfsHash → Path → Bool
  opens : List CvmfsHash → CvmfsHash → Bool

/-! ## Items -/

/-- `cvmfs_walk_kind_e` -/
inductive Kind : Type where
  | catalog
  | file
  | chunk
  | dent
  deriving DecidableEq

/-- `cvmfs_walk_item_t` -/
structure Item : Type where
  kind : Kind
  hash : CvmfsHash
  suffix : CvmfsSuffix
  size : ℕ
  path : Path
  dent : Option Row
  deriving DecidableEq

def zeroHash : CvmfsHash := ⟨.sha1, List.replicate 20 0, List.length_replicate⟩

/-- The content object of a file -/
def fileItem (d : CvmfsDigest) (size : ℕ) (p : Path) : Item := ⟨.file, ⟨.sha1, d⟩, 0, size, p, none⟩

/-- A chunk of a file, with the suffix `P` -/
def chunkItem (ch : Chunk) (p : Path) : Item := ⟨.chunk, ⟨.sha1, ch.hash⟩, 80, ch.size, p, none⟩

/-- A catalog, with the suffix `C` -/
def catalogItem (h : CvmfsHash) (size : ℕ) (p : Path) : Item := ⟨.catalog, h, 67, size, p, none⟩

/-! ## The walk -/

/-- What a walk is given: the catalogs by their hashes, what goes wrong, whether the callback stops
at an item after those before it, and the mode -/
structure Env : Type where
  tables : CvmfsHash → Tables
  io : Io
  stops : List Item → Item → Bool
  pathsMode : Bool

/-- `walk_ctx_t`: the items so far, and the catalogs that were to be opened, in order -/
structure State : Type where
  items : List Item
  stopped : Bool
  err : Bool
  opened : List CvmfsHash

/-- The start of a walk -/
def State.init : State := ⟨[], false, false, []⟩

def walkMaxPath : ℕ := 1024

/-- `name` of `cvmfs_dirent_t`, a buffer of 256 bytes -/
def direntName (r : Row) : Bytes := (r.path.getLast?.getD []).take 255

namespace Env

variable (env : Env)

/-- `cvmfs_catalog_readdir`: the rows that the callback is called for -/
def readdir (cat : CvmfsHash) (p : Path) : List Row :=
  let rows := ((env.tables cat).children p).map Row.dirent
  match env.io.readdir cat p with
  | none => rows
  | some n => rows.take n

/-- `cvmfs_catalog_chunks`: the rows that the callback is called for -/
def chunksOf (cat : CvmfsHash) (p : Path) : List Chunk :=
  match env.io.chunks cat p with
  | none => (env.tables cat).chunksOf p
  | some n => ((env.tables cat).chunksOf p).take n

/-- `cvmfs_catalog_nested` when it returns 1 -/
def nestedAt (cat : CvmfsHash) (p : Path) : Option (CvmfsHash × ℕ) :=
  if env.io.nested cat p then none else (env.tables cat).nestedAt p

/-- Hand an item to the callback, which may stop the walk. -/
def emit (w : State) (it : Item) : State :=
  if w.stopped || w.err then w
  else { w with items := w.items ++ [it], stopped := env.stops w.items it }

/-- `chunk_emit` for each chunk of a file -/
def emitChunks (cat : CvmfsHash) (p : Path) (w : State) : State :=
  (env.chunksOf cat p).foldl (fun w ch => env.emit w (chunkItem ch p)) w

/-- `open_and_walk`, with the walk of a directory -/
def openAndWalk (walk : CvmfsHash → Path → ℤ → State → State) (h : CvmfsHash) (p : Path)
    (depth : ℤ) (w : State) : State :=
  if w.stopped || w.err then w
  else if env.io.opens w.opened h then walk h p depth { w with opened := w.opened ++ [h] }
  else { w with err := true, opened := w.opened ++ [h] }

/-- `child_visit`, with the walk of a directory -/
def childVisit (walk : CvmfsHash → Path → ℤ → State → State) (cat : CvmfsHash) (parent : Path)
    (depth : ℤ) (w : State) (e : Row) : State :=
  if w.stopped || w.err || direntName e = [] then w
  else
    let cpath := parent ++ [direntName e]
    if walkMaxPath ≤ cpath.textLen then w
    else
      let w := if env.pathsMode then env.emit w ⟨.dent, zeroHash, 0, e.size, cpath, some e⟩ else w
      if e.isFile then
        if env.pathsMode then w
        else if e.isChunked then env.emitChunks cat cpath w
        else
          match e.hash with
          | some d => env.emit w (fileItem d e.size cpath)
          | none => w
      else if e.isDir then
        match env.nestedAt cat cpath with
        | some (h, size) =>
          let w := if env.pathsMode then w else env.emit w (catalogItem h size cpath)
          if 0 < depth then env.openAndWalk walk h cpath (depth - 1) w else w
        | none => walk cat cpath depth w
      else w

/-- `walk_dir`. A path that fits in the buffer has fewer names than the buffer has bytes, so that
many levels are enough (`walkDir_levels`). -/
def walkDir : ℕ → CvmfsHash → Path → ℤ → State → State
  | 0, _, _, _, w => w
  | levels + 1, cat, path, depth, w =>
    if w.stopped || w.err then w
    else (env.readdir cat path).foldl (env.childVisit (walkDir levels) cat path depth) w

def walkLevels : ℕ := walkMaxPath

/-- The code that a walk returns -/
def rc (w : State) : ℤ := if w.err then -1 else if w.stopped then 1 else 0

/-- `cvmfs_walk_catalog`: the code, and the walk at its end -/
def walkCatalog (root : CvmfsHash) (maxDepth : ℤ) : ℤ × State :=
  let w := env.emit .init (catalogItem root 0 [])
  let w := env.openAndWalk (env.walkDir walkLevels) root [] maxDepth w
  (rc w, w)

/-- The loop of `cvmfs_walk_subtree` over the prefixes of a path: the catalog of the path, unless a
prefix is too long or a catalog is not opened, and the catalogs that were to be opened. `front` is
the prefix so far. -/
def descend : Path → Path → CvmfsHash → List CvmfsHash → Option CvmfsHash × List CvmfsHash
  | _, [], cat, opened => (some cat, opened)
  | front, name :: rest, cat, opened =>
    let prefixPath := front ++ [name]
    if walkMaxPath ≤ prefixPath.textLen then (none, opened)
    else
      match env.nestedAt cat prefixPath with
      | some (h, _) =>
        if env.io.opens opened h then descend prefixPath rest h (opened ++ [h])
        else (none, opened ++ [h])
      | none => descend prefixPath rest cat opened

def walkSubtree (root : CvmfsHash) (path : Path) (maxDepth : ℤ) : ℤ × State :=
  if path = [] then env.walkCatalog root maxDepth
  else if env.io.opens [] root then
    match env.descend [] path root [root] with
    | (none, opened) => (-1, { State.init with opened := opened })
    | (some cat, opened) =>
      let w := env.walkDir walkLevels cat path maxDepth { State.init with opened := opened }
      (rc w, w)
  else (-1, { State.init with opened := [root] })

end Env

end BrixCache.CatalogWalk

/-! ## A walk is complete -/

namespace BrixCache.CatalogWalk

open BrixCache.Publish List

variable {env : Env} {h cat root : CvmfsHash} {d p q m path : Path} {w w' w₁ : State} {it : Item}
  {n levels : ℕ} {depth maxDepth : ℤ}

/-! ### Repositories -/

/-- What an entry of a directory refers to, and what is below it, in a catalog -/
inductive Reached (tables : CvmfsHash → Tables) : CvmfsHash → Path → Item → Prop
  | file {cat : CvmfsHash} {d : Path} {r : Row} {x : CvmfsDigest} :
      r ∈ (tables cat).children d → r.isFile = true → r.isChunked = false → r.hash = some x →
      Reached tables cat d (fileItem x r.size r.path)
  | chunk {cat : CvmfsHash} {d : Path} {r : Row} {ch : Chunk} :
      r ∈ (tables cat).children d → r.isFile = true → r.isChunked = true →
      ch ∈ (tables cat).chunksOf r.path → Reached tables cat d (chunkItem ch r.path)
  | catalog {cat h : CvmfsHash} {d : Path} {r : Row} {size : ℕ} :
      r ∈ (tables cat).children d → r.isFile = false → r.isDir = true →
      (tables cat).nestedAt r.path = some (h, size) →
      Reached tables cat d (catalogItem h size r.path)
  | inCatalog {cat h : CvmfsHash} {d : Path} {r : Row} {size : ℕ} {it : Item} :
      r ∈ (tables cat).children d → r.isFile = false → r.isDir = true →
      (tables cat).nestedAt r.path = some (h, size) → Reached tables h r.path it →
      Reached tables cat d it
  | inDir {cat : CvmfsHash} {d : Path} {r : Row} {it : Item} :
      r ∈ (tables cat).children d → r.isFile = false → r.isDir = true →
      (tables cat).nestedAt r.path = none → Reached tables cat r.path it → Reached tables cat d it

/-- The catalogs that are mounted below a root catalog, each with its level and its mount point -/
inductive Mounted (tables : CvmfsHash → Tables) (root : CvmfsHash) : ℕ → CvmfsHash → Path → Prop
  | root : Mounted tables root 0 root []
  | nested {n : ℕ} {cat h : CvmfsHash} {m q : Path} {size : ℕ} : Mounted tables root n cat m →
      (q, some h, size) ∈ (tables cat).nested → Mounted tables root (n + 1) h q

/-- A repository: in each catalog the row of an entry has the row of its directory with it, the row
of the mount point apart, a mount point has the row of a directory, and no name is empty -/
structure Repository : Type where
  root : CvmfsHash
  tables : CvmfsHash → Tables
  rooted : ∀ n cat m, Mounted tables root n cat m → ∀ r ∈ (tables cat).rows, r.path ≠ m →
    r.path ≠ [] ∧ ∃ p ∈ (tables cat).rows, p.path = r.path.dropLast ∧ p.isDir = true ∧
      p.isFile = false
  mounts : ∀ n cat m, Mounted tables root n cat m → ∀ x ∈ (tables cat).nested, x.1 ≠ [] ∧
    ∃ p ∈ (tables cat).rows, p.path = x.1 ∧ p.isDir = true ∧ p.isFile = false
  named : ∀ n cat m, Mounted tables root n cat m → ∀ r ∈ (tables cat).rows, [] ∉ r.path

/-- The names and paths of a repository fit in the buffers of a walk. -/
def Repository.Fits (R : Repository) : Prop :=
  ∀ n cat m, Mounted R.tables R.root n cat m → ∀ r ∈ (R.tables cat).rows,
    r.path.textLen < walkMaxPath ∧ ∀ name ∈ r.path, name.length ≤ 255

/-- No reader of a catalog fails. -/
structure Io.Reads (io : Io) : Prop where
  readdir : ∀ cat p, io.readdir cat p = none
  chunks : ∀ cat p, io.chunks cat p = none
  nested : ∀ cat p, io.nested cat p = false

/-! ### One step -/

variable {r : Row} {t : Tables} {tables : CvmfsHash → Tables} {P : Item → Prop}

theorem mem_children :
    r ∈ t.children d ↔ r ∈ t.rows ∧ r.path ≠ [] ∧ r.path.dropLast = d := by
  simp [Tables.children]

theorem eq_snoc_of_mem_children (hr : r ∈ t.children d) :
    ∃ name, r.path.getLast? = some name ∧ r.path = d ++ [name] := by
  obtain ⟨-, hne, hparent⟩ := mem_children.mp hr
  refine ⟨r.path.getLast hne, getLast?_eq_some_getLast hne, ?_⟩
  rw [← hparent, dropLast_append_getLast]

theorem Reached.under (hit : Reached tables cat d it) :
    d <+: it.path ∧ d.length < it.path.length := by
  have hchild : ∀ {t : Tables} {r : Row} {d : Path}, r ∈ t.children d →
      d <+: r.path ∧ d.length < r.path.length := fun hr => by
    obtain ⟨name, -, hpath⟩ := eq_snoc_of_mem_children hr
    rw [hpath]
    exact ⟨prefix_append _ _, by simp⟩
  induction hit with
  | file hr _ _ _ | chunk hr _ _ _ | catalog hr _ _ _ => exact hchild hr
  | inCatalog hr _ _ _ _ ih =>
    exact ⟨(hchild hr).1.trans ih.1, Nat.lt_trans (hchild hr).2 ih.2⟩
  | inDir hr _ _ _ _ ih => exact ⟨(hchild hr).1.trans ih.1, Nat.lt_trans (hchild hr).2 ih.2⟩

theorem mem_nested {size : ℕ} (hnested : t.nestedAt p = some (h, size)) :
    (p, some h, size) ∈ t.nested := by
  obtain ⟨⟨q, o, size'⟩, hfind, hsome⟩ := Option.bind_eq_some_iff.mp hnested
  obtain ⟨h', rfl, heq⟩ := Option.map_eq_some_iff.mp hsome
  obtain ⟨rfl, rfl⟩ := Prod.mk.inj heq
  have hq : q = p := by simpa using find?_some hfind
  exact hq ▸ mem_of_find?_eq_some hfind

/-- Among the openings `opened` is one of `h`, with the answer `ok`. -/
def Opening (env : Env) (opened : List CvmfsHash) (h : CvmfsHash) (ok : Bool) : Prop :=
  ∃ past, past ++ [h] <+: opened ∧ env.io.opens past h = ok

theorem Opening.mono {o o' : List CvmfsHash} {ok : Bool} (h : Opening env o cat ok)
    (hle : o <+: o') : Opening env o' cat ok := by
  obtain ⟨past, hpast, hok⟩ := h
  exact ⟨past, hpast.trans hle, hok⟩

/-- A walk that goes on from `w` to `w'` has failed to open a catalog, or has reported the items of
`P` and nothing else, the catalogs among them opened. -/
structure Walks (env : Env) (w w' : State) (P : Item → Prop) : Prop where
  stopped : w'.stopped = false
  opened : w.opened <+: w'.opened
  outcome : (w'.err = true ∧ ∃ h, Opening env w'.opened h false) ∨
    (w'.err = false ∧ ∃ new, w'.items = w.items ++ new ∧ ∀ it, (it ∈ new ↔ P it) ∧
      (it ∈ new → it.kind = .catalog → Opening env w'.opened it.hash true))

/-- How a walk that is to report `P` ends: with -1 if the opening of a catalog failed, else with 0,
the items of `P` and nothing else, and the catalogs among them opened -/
def Complete (env : Env) (r : ℤ × State) (P : Item → Prop) : Prop :=
  (r.1 = -1 ∧ ∃ h, Opening env r.2.opened h false) ∨
    (r.1 = 0 ∧ ∀ it, (it ∈ r.2.items ↔ P it) ∧
      (it ∈ r.2.items → it.kind = .catalog → Opening env r.2.opened it.hash true))

theorem Walks.complete (h : Walks env w w' P) (hitems : w.items = []) :
    Complete env (Env.rc w', w') P := by
  rcases h.outcome with ⟨herr, hio⟩ | ⟨herr, new, hnew, hall⟩
  · exact .inl ⟨by simp [Env.rc, herr], hio⟩
  · rw [hitems, nil_append] at hnew
    exact .inr ⟨by simp [Env.rc, herr, h.stopped], hnew ▸ hall⟩

theorem Walks.refl (hstopped : w.stopped = false) (herr : w.err = false)
    (hnone : ∀ it, ¬P it) : Walks env w w P :=
  ⟨hstopped, prefix_refl _, .inr ⟨herr, [], by simp, fun it => ⟨by simp [hnone it], by simp⟩⟩⟩

theorem Walks.trans {Q : Item → Prop} (h : Walks env w w₁ P)
    (hnext : w₁.err = false → Walks env w₁ w' Q) (hfailed : w₁.err = true → w' = w₁) :
    Walks env w w' fun it => P it ∨ Q it := by
  rcases h.outcome with ⟨herr, hio⟩ | ⟨herr, new, hitems, hnew⟩
  · rw [hfailed herr]
    exact ⟨h.stopped, h.opened, .inl ⟨herr, hio⟩⟩
  · obtain ⟨hstopped, hopened, hfails | ⟨herr', new', hitems', hnew'⟩⟩ := hnext herr
    · exact ⟨hstopped, h.opened.trans hopened, .inl hfails⟩
    · refine ⟨hstopped, h.opened.trans hopened,
        .inr ⟨herr', new ++ new', ?_, fun it => ⟨?_, fun hit hkind => ?_⟩⟩⟩
      · rw [hitems', hitems, append_assoc]
      · rw [mem_append, (hnew it).1, (hnew' it).1]
      · rcases mem_append.mp hit with hit | hit
        · exact ((hnew it).2 hit hkind).mono hopened
        · exact (hnew' it).2 hit hkind

theorem Walks.congr {Q : Item → Prop} (h : Walks env w w' P) (hiff : ∀ it, P it ↔ Q it) :
    Walks env w w' Q := by
  refine ⟨h.stopped, h.opened, h.outcome.imp_right ?_⟩
  rintro ⟨herr, new, hitems, hnew⟩
  exact ⟨herr, new, hitems, fun it => ⟨(hnew it).1.trans (hiff it), (hnew it).2⟩⟩

theorem Walks.foldl {A : Type} {f : State → A → State} {P : A → Item → Prop} {xs : List A}
    (hkeep : ∀ x w, w.err = true → f w x = w)
    (hstep : ∀ x ∈ xs, ∀ w : State, w.stopped = false → w.err = false → Walks env w (f w x) (P x))
    (hstopped : w.stopped = false) (herr : w.err = false) :
    Walks env w (xs.foldl f w) fun it => ∃ x ∈ xs, P x it := by
  induction xs using reverseRecOn with
  | nil => exact .refl hstopped herr (by simp)
  | append_singleton xs x ih =>
    have ih := ih fun y hy => hstep y (mem_append_left _ hy)
    rw [foldl_append]
    refine (ih.trans (fun herr' => hstep x (by simp) _ ih.stopped herr')
      fun herr' => hkeep x _ herr').congr fun it => ?_
    simp [or_and_right, exists_or]

theorem Walks.emit (hnever : ∀ past it, env.stops past it = false) (hstopped : w.stopped = false)
    (herr : w.err = false) (hkind : it.kind ≠ .catalog) :
    Walks env w (env.emit w it) fun it' => it' = it := by
  have hemit : env.emit w it = { w with items := w.items ++ [it] } := by
    simp [Env.emit, hstopped, herr, hnever]
  rw [hemit]
  refine ⟨hstopped, prefix_refl _,
    .inr ⟨herr, [it], rfl, fun it' => ⟨mem_singleton, fun hit hcat => ?_⟩⟩⟩
  rw [mem_singleton.mp hit] at hcat
  exact absurd hcat hkind

theorem Walks.openAndWalk {walk : CvmfsHash → Path → ℤ → State → State} {size : ℕ}
    (hnever : ∀ past it, env.stops past it = false) (hstopped : w.stopped = false)
    (herr : w.err = false)
    (hwalk : ∀ w : State, w.stopped = false → w.err = false → Walks env w (walk h p depth w) P) :
    Walks env w (env.openAndWalk walk h p depth (env.emit w (catalogItem h size p)))
      fun it => it = catalogItem h size p ∨ P it := by
  have hemit : env.emit w (catalogItem h size p) =
      { w with items := w.items ++ [catalogItem h size p] } := by
    simp [Env.emit, hstopped, herr, hnever]
  rw [hemit, Env.openAndWalk, hstopped, herr]
  simp only [Bool.or_self, Bool.false_eq_true, if_false]
  by_cases hopens : env.io.opens w.opened h = true
  · rw [if_pos hopens]
    have hbelow := hwalk
      { w with items := w.items ++ [catalogItem h size p], stopped := false, err := false,
               opened := w.opened ++ [h] } rfl rfl
    refine ⟨hbelow.stopped, (prefix_append _ _).trans hbelow.opened,
      hbelow.outcome.imp_right ?_⟩
    rintro ⟨herr', new, hitems, hnew⟩
    refine ⟨herr', catalogItem h size p :: new, by simp [hitems], fun it => ⟨?_, ?_⟩⟩
    · rw [mem_cons, (hnew it).1]
    · intro hit hkind
      rcases mem_cons.mp hit with rfl | hit
      · exact ⟨w.opened, hbelow.opened, hopens⟩
      · exact (hnew it).2 hit hkind
  · rw [if_neg hopens]
    exact ⟨rfl, prefix_append _ _,
      .inl ⟨rfl, h, w.opened, prefix_refl _, Bool.eq_false_iff.mpr hopens⟩⟩

/-! ### One entry -/

/-- What the row of an entry refers to, and what is below it -/
inductive FromRow (tables : CvmfsHash → Tables) (cat : CvmfsHash) (r : Row) : Item → Prop
  | file {x : CvmfsDigest} : r.isFile = true → r.isChunked = false → r.hash = some x →
      FromRow tables cat r (fileItem x r.size r.path)
  | chunk {ch : Chunk} : r.isFile = true → r.isChunked = true →
      ch ∈ (tables cat).chunksOf r.path → FromRow tables cat r (chunkItem ch r.path)
  | catalog {h : CvmfsHash} {size : ℕ} : r.isFile = false → r.isDir = true →
      (tables cat).nestedAt r.path = some (h, size) →
      FromRow tables cat r (catalogItem h size r.path)
  | inCatalog {h : CvmfsHash} {size : ℕ} {it : Item} : r.isFile = false → r.isDir = true →
      (tables cat).nestedAt r.path = some (h, size) → Reached tables h r.path it →
      FromRow tables cat r it
  | inDir {it : Item} : r.isFile = false → r.isDir = true →
      (tables cat).nestedAt r.path = none → Reached tables cat r.path it → FromRow tables cat r it

theorem reached_iff :
    Reached tables cat d it ↔ ∃ r ∈ (tables cat).children d, FromRow tables cat r it := by
  constructor
  · intro hit
    cases hit with
    | file hr hfile hplain hhash => exact ⟨_, hr, .file hfile hplain hhash⟩
    | chunk hr hfile hchunked hch => exact ⟨_, hr, .chunk hfile hchunked hch⟩
    | catalog hr hfile hdir hnested => exact ⟨_, hr, .catalog hfile hdir hnested⟩
    | inCatalog hr hfile hdir hnested hit => exact ⟨_, hr, .inCatalog hfile hdir hnested hit⟩
    | inDir hr hfile hdir hnested hit => exact ⟨_, hr, .inDir hfile hdir hnested hit⟩
  · rintro ⟨r, hr, hit⟩
    cases hit with
    | file hfile hplain hhash => exact .file hr hfile hplain hhash
    | chunk hfile hchunked hch => exact .chunk hr hfile hchunked hch
    | catalog hfile hdir hnested => exact .catalog hr hfile hdir hnested
    | inCatalog hfile hdir hnested hit => exact .inCatalog hr hfile hdir hnested hit
    | inDir hfile hdir hnested hit => exact .inDir hr hfile hdir hnested hit

theorem fromRow_dirent :
    FromRow tables cat r.dirent it ↔ FromRow tables cat r it := by
  constructor
  · intro hit
    cases hit with
    | file hfile hplain hhash => exact .file hfile hplain hhash
    | chunk hfile hchunked hch => exact .chunk hfile hchunked hch
    | catalog hfile hdir hnested => exact .catalog hfile hdir hnested
    | inCatalog hfile hdir hnested hit => exact .inCatalog hfile hdir hnested hit
    | inDir hfile hdir hnested hit => exact .inDir hfile hdir hnested hit
  · intro hit
    cases hit with
    | file hfile hplain hhash => exact .file (r := r.dirent) hfile hplain hhash
    | chunk hfile hchunked hch => exact .chunk (r := r.dirent) hfile hchunked hch
    | catalog hfile hdir hnested => exact .catalog (r := r.dirent) hfile hdir hnested
    | inCatalog hfile hdir hnested hit => exact .inCatalog hfile hdir hnested hit
    | inDir hfile hdir hnested hit => exact .inDir hfile hdir hnested hit

/-- What a complete walk starts from: a repository whose paths fit and whose catalogs are mounted
`maxDepth` deep at most, readers that do not fail, a callback that never stops -/
structure Walking (R : Repository) (env : Env) (maxDepth : ℤ) : Prop where
  tables : env.tables = R.tables
  fits : R.Fits
  depth : ∀ n h m, Mounted R.tables R.root n h m → (n : ℤ) ≤ maxDepth
  reads : env.io.Reads
  never : ∀ past it, env.stops past it = false
  mode : env.pathsMode = false

namespace Walking

variable {R : Repository} (hw : Walking R env maxDepth)

include hw

theorem readdir_eq (cat : CvmfsHash) (p : Path) :
    env.readdir cat p = ((R.tables cat).children p).map Row.dirent := by
  simp [Env.readdir, hw.reads.readdir, hw.tables]

theorem chunksOf_eq (cat : CvmfsHash) (p : Path) :
    env.chunksOf cat p = (R.tables cat).chunksOf p := by
  simp [Env.chunksOf, hw.reads.chunks, hw.tables]

theorem nestedAt_eq (cat : CvmfsHash) (p : Path) :
    env.nestedAt cat p = (R.tables cat).nestedAt p := by
  simp [Env.nestedAt, hw.reads.nested, hw.tables]

theorem path_eq (hm : Mounted R.tables R.root n cat m) {r : Row}
    (hr : r ∈ (R.tables cat).children d) : direntName r.dirent ≠ [] ∧
      d ++ [direntName r.dirent] = r.path ∧ r.path.textLen < walkMaxPath ∧
      d.textLen < r.path.textLen := by
  obtain ⟨name, hlast, hpath⟩ := eq_snoc_of_mem_children hr
  have hrow := (mem_children.mp hr).1
  have hmem : name ∈ r.path := by rw [hpath]; simp
  have hne : name ≠ [] := fun he => R.named n cat m hm r hrow (he ▸ hmem)
  obtain ⟨hlen, hnames⟩ := hw.fits n cat m hm r hrow
  have hname : direntName r.dirent = name := by
    have hdirent : r.dirent.path = r.path := rfl
    rw [direntName, hdirent, hlast, Option.getD_some, take_of_length_le (hnames name hmem)]
  refine ⟨hname ▸ hne, by rw [hname, hpath], hlen, ?_⟩
  rw [hpath]
  simp [Path.textLen]

theorem childVisit {walk : CvmfsHash → Path → ℤ → State → State}
    (hm : Mounted R.tables R.root n cat m) (hdepth : maxDepth ≤ depth + n) {r : Row}
    (hr : r ∈ (R.tables cat).children d)
    (hwalk : ∀ n h m depth w, Mounted R.tables R.root n h m → maxDepth ≤ depth + n →
      w.stopped = false → w.err = false →
      Walks env w (walk h r.path depth w) (Reached R.tables h r.path))
    (hstopped : w.stopped = false) (herr : w.err = false) :
    Walks env w (env.childVisit walk cat d depth w r.dirent) (FromRow R.tables cat r) := by
  obtain ⟨hne, hpath, hlen, -⟩ := hw.path_eq hm hr
  have hfile : r.dirent.isFile = r.isFile := rfl
  have hdir : r.dirent.isDir = r.isDir := rfl
  have hchunked : r.dirent.isChunked = r.isChunked := rfl
  have hhash : r.dirent.hash = r.hash := rfl
  have hsize : r.dirent.size = r.size := rfl
  rw [Env.childVisit, hstopped, herr, hw.mode]
  simp only [hne, Bool.false_or, decide_false, Bool.false_eq_true, if_false, hpath,
    if_neg (Nat.not_le.mpr hlen), hfile, hdir, hchunked, hhash, hsize]
  by_cases hisfile : r.isFile = true
  · simp only [hisfile, if_true]
    by_cases hischunked : r.isChunked = true
    · -- the chunks of a file
      simp only [hischunked, if_true, Env.emitChunks, hw.chunksOf_eq]
      have hkeep : ∀ ch w, State.err w = true → env.emit w (chunkItem ch r.path) = w :=
        fun ch w herr => by simp [Env.emit, herr]
      refine (Walks.foldl (P := fun ch it => it = chunkItem ch r.path) hkeep
        (fun ch _ w hs he => .emit hw.never hs he (by simp [chunkItem])) hstopped herr).congr
        fun it => ⟨?_, fun hit => ?_⟩
      · rintro ⟨ch, hch, rfl⟩
        exact .chunk hisfile hischunked hch
      · cases hit with
        | chunk _ _ hch => exact ⟨_, hch, rfl⟩
        | _ => simp_all
    · simp only [hischunked, Bool.false_eq_true, if_false]
      cases hobject : r.hash with
      | none =>
        refine .refl hstopped herr fun it hit => ?_
        cases hit <;> simp_all
      | some x =>
        refine (Walks.emit hw.never hstopped herr (by simp [fileItem])).congr fun it => ⟨?_, ?_⟩
        · rintro rfl
          exact .file hisfile (Bool.eq_false_iff.mpr hischunked) hobject
        · intro hit
          cases hit <;> simp_all
  · have hnofile : r.isFile = false := Bool.eq_false_iff.mpr hisfile
    simp only [hisfile, Bool.false_eq_true, if_false]
    by_cases hisdir : r.isDir = true
    · simp only [hisdir, if_true, hw.nestedAt_eq]
      cases hnested : (R.tables cat).nestedAt r.path with
      | none =>
        refine (hwalk n cat m depth w hm hdepth hstopped herr).congr fun it => ⟨?_, ?_⟩
        · exact .inDir hnofile hisdir hnested
        · intro hit
          cases hit <;> simp_all
      | some x =>
        obtain ⟨h, size⟩ := x
        have hmount : Mounted R.tables R.root (n + 1) h r.path := .nested hm (mem_nested hnested)
        have hlevel := hw.depth _ _ _ hmount
        have hpos : 0 < depth := by omega
        simp only [hpos, if_true]
        refine (Walks.openAndWalk hw.never hstopped herr fun w hs he =>
          hwalk (n + 1) h r.path (depth - 1) w hmount (by omega) hs he).congr fun it => ⟨?_, ?_⟩
        · rintro (rfl | hit)
          · exact .catalog hnofile hisdir hnested
          · exact .inCatalog hnofile hisdir hnested hit
        · intro hit
          cases hit <;> simp_all
    · simp only [hisdir, Bool.false_eq_true, if_false]
      refine .refl hstopped herr fun it hit => ?_
      cases hit <;> simp_all

theorem walkDir (hm : Mounted R.tables R.root n cat m) (hdepth : maxDepth ≤ depth + n)
    (hlevels : walkMaxPath ≤ levels + d.textLen) (hstopped : w.stopped = false)
    (herr : w.err = false) :
    Walks env w (env.walkDir levels cat d depth w) (Reached R.tables cat d) := by
  induction levels generalizing n cat m d depth w with
  | zero =>
    -- a path that long has no entries
    refine .refl hstopped herr fun it hit => ?_
    obtain ⟨r, hr, -⟩ := reached_iff.mp hit
    obtain ⟨-, -, hlen, hless⟩ := hw.path_eq hm hr
    omega
  | succ levels ih =>
    rw [Env.walkDir, hstopped, herr, hw.readdir_eq]
    simp only [Bool.or_self, Bool.false_eq_true, if_false]
    have hkeep : ∀ e w, State.err w = true →
        env.childVisit (env.walkDir levels) cat d depth w e = w :=
      fun e w herr => by simp [Env.childVisit, herr]
    refine (Walks.foldl (P := fun e => FromRow R.tables cat e) hkeep (fun e he w hs hw' => ?_)
      hstopped herr).congr fun it => ?_
    · obtain ⟨r, hr, rfl⟩ := mem_map.mp he
      obtain ⟨-, -, -, hless⟩ := hw.path_eq hm hr
      refine (hw.childVisit hm hdepth hr (fun n h m depth w hm hdepth hs he =>
        ih hm hdepth (by omega) hs he) hs hw').congr fun it => ?_
      exact fromRow_dirent.symm
    · simp only [reached_iff, mem_map, exists_exists_and_eq_and, fromRow_dirent]

/-- **The whole walk**: unless a catalog was not opened it returns 0, and the root catalog and what
it reaches are its items. -/
theorem walkCatalog : Complete env (env.walkCatalog R.root maxDepth) fun it =>
    it = catalogItem R.root 0 [] ∨ Reached R.tables R.root [] it :=
  (Walks.openAndWalk hw.never rfl rfl fun _ hs he =>
    hw.walkDir .root (by simp) (by simp [Env.walkLevels]) hs he).complete rfl

end Walking

/-! ### The levels -/

theorem textLen_child {name : Bytes} (hne : name ≠ []) :
    d.textLen + 2 ≤ Path.textLen (d ++ [name]) := by
  have hpos := length_pos_iff.mpr hne
  simp only [Path.textLen, map_append, sum_append, map_cons, map_nil,
    sum_cons, sum_nil]
  omega

theorem childVisit_congr (env : Env) {walk walk' : CvmfsHash → Path → ℤ → State → State}
    (hwalk : ∀ cat p depth w, d.textLen < p.textLen → p.textLen < walkMaxPath →
      walk cat p depth w = walk' cat p depth w) (e : Row) :
    env.childVisit walk cat d depth w e = env.childVisit walk' cat d depth w e := by
  unfold Env.childVisit
  split
  · rfl
  · next hname =>
    have hne : direntName e ≠ [] := fun he => by simp [he] at hname
    have hlong := textLen_child (d := d) hne
    dsimp only
    split
    · rfl
    · next hfits =>
      have hlt : Path.textLen (d ++ [direntName e]) < walkMaxPath := Nat.not_le.mp hfits
      have hsame : ∀ cat depth w, walk cat (d ++ [direntName e]) depth w =
          walk' cat (d ++ [direntName e]) depth w :=
        fun cat depth w => hwalk cat _ depth w (by omega) hlt
      have hopen : ∀ h depth w, env.openAndWalk walk h (d ++ [direntName e]) depth w =
          env.openAndWalk walk' h (d ++ [direntName e]) depth w :=
        fun h depth w => by simp only [Env.openAndWalk, hsame]
      simp only [hsame, hopen]

/-- **The walk comes to its end**: more levels than a path has bytes in the buffer change nothing,
whatever fails and whatever the catalogs hold. -/
theorem walkDir_levels (env : Env) (hlevels : walkMaxPath ≤ levels + d.textLen) :
    env.walkDir (levels + 1) cat d depth w = env.walkDir levels cat d depth w := by
  induction levels generalizing cat d depth w with
  | zero =>
    have hnone : ∀ walk (rows : List Row) (w : State),
        rows.foldl (env.childVisit walk cat d depth) w = w := fun walk rows w => by
      refine foldl_fixed' (fun e => ?_) rows
      unfold Env.childVisit
      split
      · rfl
      · next hname =>
        have hne : direntName e ≠ [] := fun he => by simp [he] at hname
        have hlong := textLen_child (d := d) hne
        dsimp only
        rw [if_pos (by omega)]
    simp only [Env.walkDir, hnone, ite_self]
  | succ levels ih =>
    rw [Env.walkDir, Env.walkDir]
    have hvisit : env.childVisit (env.walkDir (levels + 1)) cat d depth =
        env.childVisit (env.walkDir levels) cat d depth := by
      funext w e
      exact childVisit_congr env (fun cat p depth w hlt _ => ih (by omega)) e
    rw [hvisit]

/-- A catalog with four directories one in the other, at each of which it is mounted itself -/
def Env.circle : Env :=
  let paths := (range 4).map fun k => replicate (k + 1) (ascii "n")
  ⟨fun _ => ⟨paths.map fun p => ⟨p, flagDir, 0, 1, 0, 0, 0, 1, 0, [], none, []⟩, [],
      paths.map fun p => (p, some zeroHash, 9)⟩,
    ⟨fun _ _ => none, fun _ _ => none, fun _ _ => false, fun _ _ => true⟩, fun _ _ => false, false⟩

theorem walkDir_levels_circle :
    (Env.circle.walkDir Env.walkLevels zeroHash [] 9 .init).opened.length = 4 ∧
      Env.circle.walkDir (Env.walkLevels + 1) zeroHash [] 9 .init =
        Env.circle.walkDir Env.walkLevels zeroHash [] 9 .init :=
  ⟨by decide +kernel, walkDir_levels Env.circle (Nat.le_add_right _ _)⟩

end BrixCache.CatalogWalk
