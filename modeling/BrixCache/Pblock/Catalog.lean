import BrixCache.Core.Ascii
import BrixCache.Lib.Keyed
import BrixCache.Lib.Segments

/-!
# The catalog's namespace

`sd_pblock_catalog_objects.c` and `sd_pblock_catalog_ns.c` over the tables `objects` and
`xattrs`, and the calls of `sd_pblock_namespace.c` that change the namespace. The
names are bytes, and a parent is looked up by a name cut to the buffer it is copied
to. Each statement may fail; a transaction is made, taken back, or left open by a
`COMMIT` that failed. The name cache is not in the way here: a lookup reads the row.
-/

namespace BrixCache

open Segments

/-- A path, without its NUL. -/
abbrev PblockPath : Type := Bytes

/-- `pblock_meta`, as a row has it -/
structure CatMeta : Type where
  isDir : Bool
  blobId : Bytes
  size : ℤ
  blockSize : ℤ
  mtime : ℤ
  ctime : ℤ
  mode : UInt32
  uid : UInt32
  gid : UInt32
  xform : Bytes
  deriving DecidableEq

/-- A row of `objects`. -/
structure CatRow : Type where
  path : PblockPath
  parent : PblockPath
  info : CatMeta
  deriving DecidableEq

/-- A row of `xattrs`. -/
structure XattrRow : Type where
  path : PblockPath
  name : Bytes
  value : Bytes
  deriving DecidableEq

/-- `PRIMARY KEY(path, name)` -/
def XattrRow.key (x : XattrRow) : PblockPath × Bytes := (x.path, x.name)

/-- The tables of a catalog: objects and their attributes -/
structure Catalog : Type where
  objects : List CatRow
  xattrs : List XattrRow

/-- The error numbers of the namespace calls. -/
inductive CatErr : Type where
  | eio
  | enoent
  | enotdir
  | eisdir
  | eexist
  | enotempty
  | einval
  | enametoolong
  | enodata
  /-- refused by a lease, a quota or a precondition -/
  | refused
  deriving DecidableEq

/-- What a call leaves, and its error. -/
abbrev CatResult : Type := Catalog × Option CatErr

/-! ## Parents -/

/-- `parent_of`, into a buffer of `cap` bytes -/
def parentOf (cap : ℕ) (path : PblockPath) : PblockPath :=
  if path = [slash] then []
  else
    match beforeLast slash path with
    | none => [slash]
    | some [] => [slash]
    | some (c :: d) => (c :: d).take (cap - 1)

namespace Catalog

/-- `pblock_catalog_lookup` -/
def lookup (cat : Catalog) (path : PblockPath) : Option CatMeta :=
  (Keyed.find CatRow.path path cat.objects).map (·.info)

/-- `pblock_catalog_child_count` -/
def childCount (cat : Catalog) (path : PblockPath) : ℕ :=
  cat.objects.countP fun r => r.parent = path

/-- `cat_parent_gate`: the error of a missing parent. -/
def parentGate (cat : Catalog) (path : PblockPath) : Option CatErr :=
  let parent := parentOf 1024 path
  if parent = [] ∨ parent = [slash] then none
  else
    match cat.lookup parent with
    | none => some .enoent
    | some m => if m.isDir then none else some .enotdir

end Catalog

/-! ## Rows -/

/-- What the statements of a call meet. -/
structure CatIo : Type where
  looksUp : Bool
  /-- leases, quotas, preconditions, and what the call needs besides the catalog -/
  gates : Bool
  counts : Bool
  /-- the INSERT or DELETE of a row, and the UPDATEs of a rename -/
  row : Bool
  /-- the DELETE of a path's attributes, and the statement on one -/
  xattrs : Bool
  begins : Bool
  commits : Bool
  /-- a failed `COMMIT` leaves the transaction open -/
  stays : Bool
  /-- the order in which a SELECT comes to the rows -/
  order : List PblockPath → List PblockPath
  order_perm : ∀ l, (order l).Perm l

/-- `cat_insert_step`, with the statement as `INSERT` or `INSERT OR REPLACE` -/
def catInsertStep (io : CatIo) (cat : Catalog) (path : PblockPath)
    (statement : CatRow → List CatRow → Option (List CatRow)) (m : CatMeta) : CatResult :=
  match cat.parentGate path with
  | some e => (cat, some e)
  | none =>
    if !io.row then (cat, some .eio)
    else
      match statement ⟨path, parentOf 1024 path, m⟩ cat.objects with
      | none => (cat, some .eexist)
      | some objects => ({ cat with objects }, none)

/-- Insert a row or replace the one of its path. -/
def pblockCatalogPut (io : CatIo) (cat : Catalog) (path : PblockPath) (m : CatMeta) : CatResult :=
  catInsertStep io cat path (fun r rows => some (Keyed.replace CatRow.path r rows)) m

/-- Insert a row where there is none. -/
def pblockCatalogCreate (io : CatIo) (cat : Catalog) (path : PblockPath) (m : CatMeta) :
    CatResult :=
  catInsertStep io cat path (Keyed.insert CatRow.path) m

/-- `pblock_catalog_remove`: two statements, each on its own. -/
def pblockCatalogRemoveRow (io : CatIo) (cat : Catalog) (path : PblockPath) : CatResult :=
  if !io.row then (cat, some .eio)
  else if !io.xattrs then
    ({ cat with objects := Keyed.erase CatRow.path path cat.objects }, some .eio)
  else
    ({ objects := Keyed.erase CatRow.path path cat.objects
       xattrs := cat.xattrs.filter fun x => x.path ≠ path }, none)

/-! ## Moving a subtree -/

/-- The paths at or below `src`, in the order the query gives. -/
def renameCollect (io : CatIo) (cat : Catalog) (src : PblockPath) : List PblockPath :=
  io.order ((cat.objects.map (·.path)).filter fun p =>
    p = src ∨ p.take (src.length + 1) = src ++ [slash])

/-- The UPDATE of `rename_one`. -/
def CatRow.moved (src dst : PblockPath) (r : CatRow) : CatRow :=
  let path := refront src dst r.path
  { r with path, parent := parentOf 1024 path }

/-- The attribute row moved along with its path. -/
def XattrRow.moved (src dst : PblockPath) (x : XattrRow) : XattrRow :=
  { x with path := refront src dst x.path }

/-- Move one row, unless its new path is too long. -/
def renameOne (src dst old : PblockPath) (cat : Catalog) : Except CatErr Catalog :=
  if 2048 ≤ (refront src dst old).length then .error .enametoolong
  else
    match Keyed.update CatRow.path (fun r => r.path = old) (CatRow.moved src dst) cat.objects with
    | none => .error .eio
    | some objects =>
      match Keyed.update XattrRow.key (fun x => x.path = old) (XattrRow.moved src dst) cat.xattrs with
      | none => .error .eio
      | some xattrs => .ok { objects, xattrs }

/-- The loop over the collected paths. -/
def renameEach (src dst : PblockPath) : List PblockPath → Catalog → Except CatErr Catalog
  | [], cat => .ok cat
  | old :: pl, cat =>
    match renameOne src dst old cat with
    | .error e => .error e
    | .ok cat' => renameEach src dst pl cat'

/-- `exchange_move`, and the middle of `pblock_catalog_rename` -/
def exchangeMove (io : CatIo) (cat : Catalog) (src dst : PblockPath) : Except CatErr Catalog :=
  let pl := renameCollect io cat src
  if !io.row then .error .eio
  else if pl = [] then .error .enoent
  else renameEach src dst pl cat

/-- What `BEGIN IMMEDIATE`, the statements and `COMMIT` leave. -/
def catTransaction (io : CatIo) (cat : Catalog) (body : Except CatErr Catalog) : CatResult :=
  if !io.begins then (cat, some .eio)
  else
    match body with
    | .error e => (cat, some e)
    | .ok cat' =>
      if io.commits then (cat', none)
      else (if io.stays then cat' else cat, some .eio)

/-- Rename inside one transaction. -/
def pblockCatalogRename (io : CatIo) (cat : Catalog) (src dst : PblockPath) : CatResult :=
  match cat.parentGate dst with
  | some e => (cat, some e)
  | none => catTransaction io cat (exchangeMove io cat src dst)

/-- The reserved name that an exchange moves a subtree through. -/
def xchgTmp : PblockPath := [47, 1, 98, 114, 105, 120, 45, 120, 99, 104, 103, 1]

/-- Three moves by way of a temporary path. -/
def exchangeMoves (io : CatIo) (cat : Catalog) (a b : PblockPath) : Except CatErr Catalog :=
  match exchangeMove io cat a xchgTmp with
  | .error e => .error e
  | .ok cat₁ =>
    match exchangeMove io cat₁ b a with
    | .error e => .error e
    | .ok cat₂ => exchangeMove io cat₂ xchgTmp b

/-- Exchange two subtrees, neither below the other. -/
def pblockCatalogExchange (io : CatIo) (cat : Catalog) (a b : PblockPath) : CatResult :=
  if AtOrBelow slash a b ∨ Below slash b a then (cat, some .einval)
  else catTransaction io cat (exchangeMoves io cat a b)

/-! ## The calls of the driver -/

/-- `pblock_path_canon`, into a buffer of `PATH_MAX` bytes -/
def pblockPathCanon (path : PblockPath) : Option PblockPath :=
  if 4096 ≤ path.length then none
  else
    match (path.reverse.dropWhile (· = slash)).reverse with
    | [] => some (path.take 1)
    | c :: p => some (c :: p)

/-- `sd_pblock_mkdir_as` -/
def sdPblockMkdir (io : CatIo) (cat : Catalog) (path : PblockPath) (m : CatMeta) : CatResult :=
  match pblockPathCanon path with
  | none => (cat, some .enametoolong)
  | some canon =>
    if !io.gates then (cat, some .refused)
    else pblockCatalogCreate io cat canon { m with isDir := true }

/-- `sd_pblock_open_as` with `O_CREATE` -/
def sdPblockOpenCreate (io : CatIo) (cat : Catalog) (path : PblockPath) (m : CatMeta) :
    CatResult :=
  if !io.looksUp then (cat, some .eio)
  else
    match cat.lookup path with
    | some _ => (cat, none)
    | none =>
      if !io.gates then (cat, some .refused)
      else pblockCatalogPut io cat path { m with isDir := false }

/-- `sd_pblock_unlink`, of a directory with `isDir` -/
def sdPblockRemove (io : CatIo) (cat : Catalog) (path : PblockPath) (isDir : Bool) : CatResult :=
  if !io.looksUp then (cat, some .eio)
  else
    match cat.lookup path with
    | none => (cat, some .enoent)
    | some m =>
      if !io.gates then (cat, some .refused)
      else if isDir then
        if !m.isDir then (cat, some .enotdir)
        else if !io.counts then (cat, some .eio)
        else if 0 < cat.childCount path then (cat, some .enotempty)
        else pblockCatalogRemoveRow io cat path
      else if m.isDir then (cat, some .eisdir)
      else pblockCatalogRemoveRow io cat path

/-- `sd_pblock_drop_dst` -/
def catDropDst (io : CatIo) (cat : Catalog) (dst : PblockPath) (m : CatMeta) : CatResult :=
  if m.isDir && !io.counts then (cat, some .eio)
  else if m.isDir ∧ 0 < cat.childCount dst then (cat, some .enotempty)
  else pblockCatalogRemoveRow io cat dst

def pblockRenamePrepare (io : CatIo) (cat : Catalog) (src dst : PblockPath) (noreplace : Bool) :
    CatResult :=
  if !io.looksUp then (cat, some .eio)
  else
    match cat.lookup src with
    | none => (cat, some .enoent)
    | some _ =>
      if !io.gates then (cat, some .refused)
      else
        match cat.lookup dst with
        | none => (cat, none)
        | some m => if noreplace then (cat, some .eexist) else catDropDst io cat dst m

/-- `sd_pblock_rename` -/
def sdPblockMove (io : CatIo) (cat : Catalog) (src dst : PblockPath) (noreplace : Bool) :
    CatResult :=
  match pblockRenamePrepare io cat src dst noreplace with
  | (cat', some e) => (cat', some e)
  | (cat', none) => pblockCatalogRename io cat' src dst

def sdPblockExchange (io : CatIo) (cat : Catalog) (a b : PblockPath) : CatResult :=
  if !io.gates then (cat, some .refused) else pblockCatalogExchange io cat a b

/-- The statements of `sd_pblock_staged_commit` between `BEGIN` and `COMMIT`. -/
def stagedPublish (io : CatIo) (cat : Catalog) (path : PblockPath) (m : CatMeta) :
    Except CatErr Catalog :=
  if !io.looksUp then .error .eio
  else if !io.gates then .error .refused
  else
    let dropped : CatResult :=
      match cat.lookup path with
      | none => (cat, none)
      | some old => catDropDst io cat path old
    match dropped with
    | (_, some e) => .error e
    | (cat', none) =>
      match pblockCatalogPut io cat' path { m with isDir := false } with
      | (_, some e) => .error e
      | (cat'', none) => .ok cat''

/-- `sd_pblock_staged_commit`: a failed `COMMIT` is rolled back. -/
def sdPblockStagedPublish (io : CatIo) (cat : Catalog) (path : PblockPath) (m : CatMeta) :
    CatResult :=
  catTransaction { io with stays := false } cat (stagedPublish io cat path m)

/-- `XATTR_CREATE`, `XATTR_REPLACE` and neither. -/
inductive XattrMode : Type where
  | create
  | replace
  | upsert
  deriving DecidableEq

/-- Set an attribute of an existing path. -/
def pblockCatalogSetxattr (io : CatIo) (cat : Catalog) (path : PblockPath) (name value : Bytes)
    (mode : XattrMode) : CatResult :=
  if !io.looksUp then (cat, some .eio)
  else if (cat.lookup path).isNone then (cat, some .enoent)
  else if !io.xattrs then (cat, some .eio)
  else
    match mode with
    | .create =>
      match Keyed.insert XattrRow.key ⟨path, name, value⟩ cat.xattrs with
      | none => (cat, some .eexist)
      | some xattrs => ({ cat with xattrs }, none)
    | .replace =>
      if (Keyed.find XattrRow.key (path, name) cat.xattrs).isNone then (cat, some .enodata)
      else
        ({ cat with
           xattrs := cat.xattrs.map fun x => if x.key = (path, name) then { x with value } else x },
          none)
    | .upsert =>
      ({ cat with xattrs := Keyed.replace XattrRow.key ⟨path, name, value⟩ cat.xattrs }, none)

/-- Remove an attribute of an existing path. -/
def pblockCatalogRemovexattr (io : CatIo) (cat : Catalog) (path : PblockPath) (name : Bytes) :
    CatResult :=
  if !io.looksUp then (cat, some .eio)
  else if (cat.lookup path).isNone then (cat, some .enoent)
  else if !io.xattrs then (cat, some .eio)
  else if (Keyed.find XattrRow.key (path, name) cat.xattrs).isNone then (cat, some .enodata)
  else ({ cat with xattrs := Keyed.erase XattrRow.key (path, name) cat.xattrs }, none)

end BrixCache
