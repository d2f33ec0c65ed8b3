import BrixCache.Cvmfs.Catalog

/-!
# Publishing a changeset

`shared/cvmfs/publish`: `publish.c` with `publish_apply.c` and `publish_counters.c`. Catalogs are
opened as working copies along the path of a change, the changes are made in them, and then they
are stored from the deepest up, each new catalog being named by the row of its parent. A call that
fails ends the publish (`none`), and what is stored stays readable.
-/

namespace BrixCache.Publish

def pubPathMax : ℕ := 1024

/-! ## Changes -/

/-- `cvmfs_change_op_e`, with what the operation alone reads: whether a directory replaces what was
below it, the content of the file (none if it cannot be read any more), the target of the link -/
inductive Op : Type where
  | delete
  | addDir (opaqueDir noClobber : Bool)
  | addFile (content : Option Bytes)
  | addLink (target : Bytes) (noClobber : Bool)
  deriving DecidableEq

/-- `cvmfs_change_t`; the last three fields are those of the scan. -/
structure Change : Type where
  op : Op
  path : Path
  mode : UInt32 := 0
  uid : UInt32 := 0
  gid : UInt32 := 0
  mtime : ℤ := 0
  linkcount : UInt32 := 0
  hardlinkGroup : UInt32 := 0
  xattr : Bytes := []
  dev : UInt64 := 0
  ino : UInt64 := 0
  nlink : UInt32 := 0
  deriving DecidableEq

def pubRowFromChange (c : Change) : Row where
  path := c.path
  flags := 0
  mode := c.mode
  size := 0
  mtime := c.mtime
  uid := c.uid
  gid := c.gid
  linkcount := if c.linkcount ≠ 0 then c.linkcount else 1
  hardlinkGroup := c.hardlinkGroup
  symlink := []
  hash := none
  xattr := c.xattr

/-! ## Rules -/

/-- `pub_dirtab_t` -/
structure Dirtab : Type where
  pat : List Bytes
  madd : List Path
  mdel : List Path

/-- What is outside the code: `fnmatch` of a pattern, SQLite's `GLOB` of a directory and a path, and
the hash of the object that a content is stored as. -/
structure Env : Type where
  fnmatch : Bytes → Path → Bool
  glob : Path → Path → Bool
  objectHash : Bytes → CvmfsDigest

/-- `pub_dirtab_match`: the last pattern that matches decides. -/
def pubDirtabMatch (env : Env) (dt : Dirtab) (path : Path) : Bool :=
  dt.pat.foldl (fun matched p =>
    let neg := p.head? = some 33
    if env.fnmatch (if neg then p.tail else p) path then !decide neg else matched) false

/-- A new directory that gets a catalog of its own. -/
def pubDirtabNewNests (env : Env) (dt : Dirtab) (path : Path) : Bool :=
  pubDirtabMatch env dt path || dt.madd.contains path

def markerName : Bytes := ascii ".cvmfscatalog"

/-- `pub_dirtab_markers`, with the patterns of the file -/
def pubDirtabMarkers (pat : List Bytes) (cs : List Change) : Dirtab where
  pat := pat
  madd := (cs.filter fun c => (match c.op with | .addFile _ => true | _ => false) &&
    decide (c.path.getLast? = some markerName ∧ c.path.dropLast ≠ [])).map fun c => c.path.dropLast
  mdel := (cs.filter fun c => decide (c.op = .delete) &&
    decide (c.path.getLast? = some markerName ∧ c.path.dropLast ≠ [])).map fun c => c.path.dropLast

/-! ## Working copies -/

/-- `pub_cat_t`: a catalog fetched has a pristine copy, a fresh one has none; `writing` is whether
the writer is there, `tot` are the totals once they are known. -/
structure OpenCat : Type where
  mount : Path
  origDb : Option Catalog
  db : Catalog
  writing : Bool
  parent : Option ℕ
  dirty : Bool
  dropped : Bool
  tot : Option (Counter → ℤ)

/-- `pub_ctx_t`: the catalogs in the order in which they were registered, the root first -/
structure Ctx : Type where
  count : ℕ
  cat : ℕ → OpenCat

namespace Ctx

/-- The catalog `k` is changed. -/
def modify (px : Ctx) (k : ℕ) (f : OpenCat → OpenCat) : Ctx :=
  { px with cat := Function.update px.cat k (f (px.cat k)) }

/-- `pub_cat_register`, with what its callers fill in -/
def register (px : Ctx) (c : OpenCat) : Ctx :=
  ⟨px.count + 1, Function.update px.cat px.count c⟩

/-- The first catalog for which a test holds -/
def find (px : Ctx) (p : OpenCat → Bool) : Option ℕ :=
  (List.range px.count).find? fun k => p (px.cat k)

end Ctx

/-- Register a catalog read from the store. -/
def pubCatMaterialize (px : Ctx) (mount : Path) (parent : Option ℕ) (c : Catalog) : Ctx :=
  px.register ⟨mount, some c, c, true, parent, false, false, none⟩

/-- Register a new nested catalog. -/
def pubCatFresh (px : Ctx) (mount : Path) (parent : ℕ) (rootrow : Row) : Option Ctx :=
  (Catalog.empty.insert
    { rootrow with path := mount, flags := flagDir ||| flagDirNestedRoot }).map fun db =>
      px.register ⟨mount, none, db, true, some parent, true, false, none⟩

/-- The open catalog mounted at a path. -/
def pubCatFind (px : Ctx) (mount : Path) : Option ℕ :=
  px.find fun c => !c.dropped && decide (c.mount = mount)

/-- The loop of `pub_owner`, behind the names `done`, in the catalog `k` -/
def pubOwnerLoop (px : Ctx) (k : ℕ) (done : Path) : Path → Option (Ctx × ℕ)
  | [] => some (px, k)
  | [_] => some (px, k)
  | name :: rest =>
    let pre := done ++ [name]
    match pubCatFind px pre with
    | some child => pubOwnerLoop px child pre rest
    | none =>
      match (px.cat k).db.lookup pre with
      | none => pubOwnerLoop px k pre rest
      | some de =>
        if de.isMount then
          match (px.cat k).db.nestedAt pre with
          | none => none
          | some c => pubOwnerLoop (pubCatMaterialize px pre (some k) c) px.count pre rest
        else pubOwnerLoop px k pre rest

def pubOwner (px : Ctx) (path : Path) : Option (Ctx × ℕ) := pubOwnerLoop px 0 [] path

/-! ## Applying the changes -/

section Apply

variable (env : Env) (dt : Dirtab) (chunkSize : ℕ)

def OpenCat.wrote (c : OpenCat) (db : Catalog) : OpenCat := { c with db := db, dirty := true }

/-- `pub_apply_delete`: the catalogs at and below the path are dropped. -/
def pubApplyDelete (px : Ctx) (k : ℕ) (c : Change) : Option Ctx := do
  let db := (px.cat k).db
  let db := match db.lookup c.path with
    | some de => if de.isMount then db.delNested c.path else db
    | none => db
  let db ← db.deleteSubtree env.glob c.path
  let px := { px with
    cat := fun i => if c.path <+: (px.cat i).mount then { px.cat i with dropped := true }
      else px.cat i }
  some (px.modify k fun cat => cat.wrote db)

/-- Create or refresh a directory's row. -/
def pubAddDir (px : Ctx) (k : ℕ) (c : Change) (opaqueDir noClobber : Bool) : Option Ctx := do
  let found := (px.cat k).db.lookup c.path
  let isDir := found.any Row.isDir
  let isMount := found.any Row.isMount
  if noClobber ∧ found.isSome ∧ ¬isDir then none
  else
    let db ← if opaqueDir ∧ found.isSome then (px.cat k).db.deleteSubtree env.glob c.path
      else some (px.cat k).db
    let r := { pubRowFromChange c with flags := flagDir }
    let mount := { r with flags := flagDir ||| flagDirNestedMount }
    if isMount ∧ ¬opaqueDir then
      some (px.modify k fun cat => cat.wrote (db.upsert mount))
    else if (found.isNone ∨ opaqueDir) ∧ pubDirtabNewNests env dt c.path then
      let px ← pubCatFresh px c.path k mount
      some (px.modify k fun cat => cat.wrote (db.upsert mount))
    else
      some (px.modify k fun cat => cat.wrote (db.upsert r))

/-- The pieces that reading into a buffer of `n` bytes gives, with so many reads allowed -/
def readPieces (n : ℕ) : ℕ → Bytes → List Bytes
  | 0, _ => []
  | reads + 1, bs => if bs = [] then [] else bs.take n :: readPieces n reads (bs.drop n)

/-- `pub_store_chunks`, from an offset on -/
def pubStoreChunks (path : Path) : ℕ → List Bytes → Catalog → Option Catalog
  | _, [], db => some db
  | off, piece :: rest, db =>
    (db.addChunk ⟨path, off, piece.length, env.objectHash piece⟩).bind
      (pubStoreChunks path (off + piece.length) rest)

/-- Replace what is there by a file and its chunks. -/
def pubAddFile (px : Ctx) (k : ℕ) (c : Change) (content : Option Bytes) : Option Ctx := do
  let db ← (px.cat k).db.deleteSubtree env.glob c.path
  let bs ← content
  let r := { pubRowFromChange c with size := bs.length }
  if chunkSize < bs.length then
    let db ← pubStoreChunks env c.path 0 (readPieces chunkSize bs.length bs) db
    some (px.modify k fun cat => cat.wrote (db.upsert { r with flags := flagFile ||| flagFileChunk }))
  else
    some (px.modify k fun cat =>
      cat.wrote (db.upsert { r with flags := flagFile, hash := some (env.objectHash bs) }))

/-- Replace what is there by a link. -/
def pubAddLink (px : Ctx) (k : ℕ) (c : Change) (target : Bytes) (noClobber : Bool) :
    Option Ctx := do
  if noClobber ∧ ((px.cat k).db.lookup c.path).any Row.isDir then none
  else
    let db ← (px.cat k).db.deleteSubtree env.glob c.path
    let r := { pubRowFromChange c with flags := flagLink, symlink := target, size := target.length }
    some (px.modify k fun cat => cat.wrote (db.upsert r))

/-- One change of `pub_apply` -/
def pubApplyOne (px : Ctx) (c : Change) : Option Ctx := do
  let (px, k) ← pubOwner px c.path
  match c.op with
  | .delete => pubApplyDelete env px k c
  | .addDir opaqueDir noClobber => pubAddDir env dt px k c opaqueDir noClobber
  | .addFile content => pubAddFile env chunkSize px k c content
  | .addLink target noClobber => pubAddLink env px k c target noClobber

/-- Apply the changes in order. -/
def pubApply (px : Ctx) (cs : List Change) : Option Ctx :=
  cs.foldlM (pubApplyOne env dt chunkSize) px

end Apply

/-! ## Storing the catalogs -/

/-- The counters of a catalog that is open. -/
def pcOpenTotals (px : Ctx) (mount : Path) : Option (Counter → ℤ) :=
  (px.find fun c => c.tot.isSome && decide (c.mount = mount)).bind fun k => (px.cat k).tot

/-- The counters stored in a catalog. -/
def pcCasTotals (c : Catalog) (k : Counter) : ℤ := c.self k + c.subtree k

/-- `pub_subtree_counters`: what the nested catalogs of a catalog come to -/
def pubSubtreeCounters (px : Ctx) (db : Catalog) (k : Counter) : ℤ :=
  (db.nested.map fun n => (pcOpenTotals px n.1).getD (pcCasTotals n.2) k).sum

/-- `pub_finalize_one`: the catalog is stored with its counters, and its writer is closed. -/
def pubFinalizeOne (px : Ctx) (k : ℕ) : Ctx :=
  let db := (px.cat k).db.updateCounters
  let sub := pubSubtreeCounters px db
  px.modify k fun c =>
    { c with db := { db with subtree := sub }, writing := false, tot := some fun i => db.self i + sub i }

/-- The untouched and the orphaned catalogs are discarded. -/
def pubDiscard (px : Ctx) : Ctx :=
  { px with cat := fun i => if (px.cat i).dropped ∨ ¬(px.cat i).dirty then
      { px.cat i with writing := false } else px.cat i }

/-- The first of the deepest catalogs that are open -/
def pubPick (px : Ctx) : Option ℕ :=
  (List.range px.count).foldl (fun pick i =>
    if (px.cat i).writing then
      match pick with
      | none => some i
      | some j => if (px.cat j).mount.textLen < (px.cat i).mount.textLen then some i else some j
    else pick) none

/-- `pub_finalize`, with so many rounds allowed: the root catalog -/
def pubFinalize : ℕ → Ctx → Option Catalog
  | 0, _ => none
  | rounds + 1, px =>
    let px := pubDiscard px
    match pubPick px with
    | none => none
    | some k =>
      let px := pubFinalizeOne px k
      if (px.cat k).mount = [] then some (px.cat k).db
      else
        let par := (px.cat k).parent.getD 0
        if (px.cat par).writing then
          pubFinalize rounds (px.modify par fun c =>
            c.wrote (c.db.setNested (px.cat k).mount (px.cat k).db))
        else none

def pubStart (root : Catalog) : Ctx :=
  pubCatMaterialize ⟨0, fun _ => ⟨[], none, .empty, false, none, false, false, none⟩⟩ [] none root

end BrixCache.Publish

/-!
## Splitting and dissolving catalogs

`shared/cvmfs/publish/publish_dirtab.c`. What is there is read from the pristine copies, while the
working copies change; a fresh catalog has no pristine copy, and reading it fails.
-/

namespace BrixCache.Publish

def dtXattrCap : ℕ := 65536

/-- The directories that a path below the limit can have above it -/
def dtLevels : ℕ := pubPathMax

/-! ### Copying a subtree -/

/-- The body of `dt_copy_subtree` for one entry, without what is below it -/
def dtCopyEntry (rd : Catalog) (path : Path) (dst : Catalog) (e : Row) : Option Catalog :=
  if pubPathMax ≤ Path.textLen path then none
  else
    let dst := dst.upsert { e with path := path, xattr := rd.xattr path dtXattrCap }
    if e.isChunked then (rd.chunksOf path).foldlM Catalog.addChunk dst else some dst

/-- `dt_copy_subtree`, through so many levels -/
def dtCopySubtree (rd : Catalog) : ℕ → Path → Catalog → Option Catalog
  | 0, _, _ => none
  | levels + 1, path, dst =>
    (rd.readdir path).foldlM (fun dst e =>
      let sub := path ++ [e.path.getLastD []]
      (dtCopyEntry rd sub dst e).bind fun dst =>
        if e.isDir ∧ ¬e.isMount then dtCopySubtree rd levels sub dst else some dst) dst

/-- `dt_move_nested`: the rows below the prefix, of all for the empty one -/
def dtMoveNested (src dst : Catalog) (pre : Path) : Catalog :=
  (src.nested.filter fun n => decide (pre <+: n.1 ∧ (pre = [] ∨ pre ≠ n.1))).foldl
    (fun dst n => dst.setNested n.1 n.2) dst

/-! ### Splitting and dissolving -/

section

variable (env : Env) (dt : Dirtab)

/-- `dt_split`: the fresh catalog -/
def dtSplit (px : Ctx) (k : ℕ) (path : Path) (e : Row) : Option (Ctx × ℕ) := do
  let row := { e with path := path }
  let child := px.count
  let px ← pubCatFresh px path k row
  let orig ← (px.cat k).origDb
  let db ← dtCopySubtree orig dtLevels path (px.cat child).db
  let db := dtMoveNested (px.cat k).db db path
  let par ← (px.cat k).db.deleteSubtree env.glob path
  let par := par.upsert { row with flags := flagDir ||| flagDirNestedMount }
  let px := px.modify child fun c => { c with db := db }
  some (px.modify k fun c => c.wrote par, child)

def dtOpenChild (px : Ctx) (k : ℕ) (path : Path) : Option (Ctx × ℕ) :=
  ((px.cat k).db.nestedAt path).map fun c => (pubCatMaterialize px path (some k) c, px.count)

/-- `dt_dissolve`, with the child open -/
def dtDissolve (px : Ctx) (k : ℕ) (path : Path) (child : ℕ) : Option Ctx := do
  let root ← (px.cat child).db.lookup path
  let db := (px.cat k).db.upsert { root with path := path, flags := flagDir }
  let orig ← (px.cat child).origDb
  let db ← dtCopySubtree orig dtLevels path db
  let db := (dtMoveNested (px.cat child).db db []).delNested path
  let px := px.modify child fun c => { c with dropped := true }
  some (px.modify k fun c => c.wrote db)

/-- What becomes of a mount point: it stays, with what was opened to find that out, or its catalog,
open if it had to be looked into, is dissolved. -/
inductive MountFate : Type where
  | stays (px : Ctx)
  | goes (px : Ctx) (child : Option ℕ)

/-- A mount the dirtab still asks for stays. -/
def dtMountStays (px : Ctx) (k : ℕ) (path : Path) : Option MountFate :=
  if pubDirtabMatch env dt path then some (.stays px)
  else if dt.madd.contains path then some (.stays px)
  else if dt.mdel.contains path then some (.goes px none)
  else if dt.pat = [] then some (.stays px)
  else do
    let (px, child) ← dtOpenChild px k path
    if pubPathMax ≤ Path.textLen (path ++ [markerName]) then none
    else if ((px.cat child).db.lookup (path ++ [markerName])).any Row.isFile then some (.stays px)
    else some (.goes px (some child))

/-- The body of `dt_walk` for a mount point -/
def dtMount (px : Ctx) (k : ℕ) (path : Path) : Option Ctx := do
  match ← dtMountStays env dt px k path with
  | .stays px => some px
  | .goes px (some child) => dtDissolve px k path child
  | .goes px none =>
    let (px, child) ← dtOpenChild px k path
    dtDissolve px k path child

/-- `dt_walk`, through so many levels, in the catalog `k`, reading the pristine copy of the root -/
def dtWalk (rd : Catalog) : ℕ → ℕ → Path → Ctx → Option Ctx
  | 0, _, _, _ => none
  | levels + 1, k, path, px =>
    (rd.readdir path).foldlM (fun px e =>
      if ¬e.isDir then some px
      else
        let sub := path ++ [e.path.getLastD []]
        if pubPathMax ≤ Path.textLen sub then none
        else if e.isMount then dtMount env dt px k sub
        else if pubDirtabNewNests env dt sub then
          (dtSplit env px k sub e).bind fun r => dtWalk rd levels r.2 sub r.1
        else dtWalk rd levels k sub px) px

/-- Bring the nests in line with the dirtab. -/
def pubDirtabApply (px : Ctx) : Option Ctx :=
  if dt.pat = [] ∧ dt.madd = [] ∧ dt.mdel = [] then some px
  else (px.cat 0).origDb.bind fun rd => dtWalk env dt rd dtLevels 0 [] px

end

/-- `pub_run_pipeline`, on the root catalog: the new root catalog -/
def pubRunPipeline (env : Env) (pat : List Bytes) (chunkSize : ℕ) (root : Catalog)
    (cs : List Change) : Option Catalog := do
  let dt := pubDirtabMarkers pat cs
  let px ← pubDirtabApply env dt (pubStart root)
  let px ← pubApply env dt chunkSize px cs
  pubFinalize (px.count + 1) px

end BrixCache.Publish
