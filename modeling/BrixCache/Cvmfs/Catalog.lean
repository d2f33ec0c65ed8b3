import BrixCache.Cvmfs.Hash
import BrixCache.Lib.Keyed
import Mathlib.Algebra.Ring.Int.Defs
import Mathlib.Algebra.Ring.Nat

/-!
# The catalogs of a repository

`shared/cvmfs/catalog`: what is read of a catalog and what is written to it, as tables of rows. A
row is filed under the MD5 of its path, here under the path, and the children of a directory are
the rows whose parent it is. A row of `nested_catalogs` names a catalog by its content hash, here
it holds that catalog, so that a catalog is a tree of catalogs. Names have at most `NAME_MAX` bytes,
and no name that is read is cut.
-/

namespace BrixCache.Publish

/-- A path from the root of the repository, by its names -/
abbrev Path : Type := List Bytes

def Path.textLen (p : Path) : ℕ := (p.map fun name => name.length + 1).sum

/-! ## Rows -/

/-- A row of `catalog` (`cvmfs_catrow_t`), an attribute that is `NULL` being empty -/
structure Row : Type where
  path : Path
  flags : UInt32
  mode : UInt32
  size : ℕ
  mtime : ℤ
  uid : UInt32
  gid : UInt32
  linkcount : UInt32
  hardlinkGroup : UInt32
  symlink : Bytes
  hash : Option CvmfsDigest
  xattr : Bytes
  deriving DecidableEq

def flagDir : UInt32 := 1

def flagDirNestedMount : UInt32 := 2

def flagFile : UInt32 := 4

def flagLink : UInt32 := 8

def flagDirNestedRoot : UInt32 := 32

def flagFileChunk : UInt32 := 64

namespace Row

def has (r : Row) (flag : UInt32) : Bool := r.flags &&& flag ≠ 0

def isDir (r : Row) : Bool := r.has flagDir

def isMount (r : Row) : Bool := r.has flagDirNestedMount

def isFile (r : Row) : Bool := r.has flagFile

def isLink (r : Row) : Bool := r.has flagLink

def isChunked (r : Row) : Bool := r.has flagFileChunk

/-- `row_to_dirent`, without the extended attributes, which are read apart -/
def dirent (r : Row) : Row :=
  { r with
    linkcount := if r.linkcount = 0 then 1 else r.linkcount
    symlink := if r.isLink then r.symlink else []
    xattr := [] }

/-- What `row_write` stores of a row -/
def stored (r : Row) : Row := { r with linkcount := if r.linkcount = 0 then 1 else r.linkcount }

end Row

/-- A row of `chunks` -/
structure Chunk : Type where
  path : Path
  offset : ℕ
  size : ℕ
  hash : CvmfsDigest
  deriving DecidableEq

def Chunk.key (ch : Chunk) : Path × ℕ := (ch.path, ch.offset)

/-- `pub_counter_names` -/
inductive Counter : Type where
  | regular
  | chunked
  | chunks
  | dir
  | symlink
  | nested
  | fileSize
  | chunkedSize
  | xattr
  deriving DecidableEq

/-- A catalog, of `statistics` the counters `self_*` and `subtree_*`, an absent one being zero -/
structure Catalog : Type where
  rows : List Row
  chunks : List Chunk
  nested : List (Path × Catalog)
  self : Counter → ℤ
  subtree : Counter → ℤ

namespace Catalog

/-- A catalog without rows -/
def empty : Catalog := ⟨[], [], [], fun _ => 0, fun _ => 0⟩

/-! ## Reading -/

def row (c : Catalog) (p : Path) : Option Row := Keyed.find Row.path p c.rows

/-- `cvmfs_catalog_lookup`, `cvmfs_catwriter_lookup` -/
def lookup (c : Catalog) (p : Path) : Option Row := (c.row p).map Row.dirent

/-- `cvmfs_catalog_readdir` -/
def readdir (c : Catalog) (p : Path) : List Row :=
  (c.rows.filter fun r => r.path ≠ [] ∧ r.path.dropLast = p).map Row.dirent

/-- `cvmfs_catalog_xattr` into a buffer of so many bytes, empty where it gives none -/
def xattr (c : Catalog) (p : Path) (cap : ℕ) : Bytes :=
  match c.row p with
  | some r => if r.xattr.length ≤ cap then r.xattr else []
  | none => []

/-- `cvmfs_catalog_chunks` -/
def chunksOf (c : Catalog) (p : Path) : List Chunk :=
  (c.chunks.filter fun ch => ch.path = p).mergeSort fun x y => x.offset ≤ y.offset

/-- The catalog of the row of `nested_catalogs` for a path -/
def nestedAt (c : Catalog) (p : Path) : Option Catalog :=
  (Keyed.find Prod.fst p c.nested).map Prod.snd

/-! ## Writing -/

/-- `cvmfs_catwriter_upsert` -/
def upsert (c : Catalog) (r : Row) : Catalog :=
  { c with rows := Keyed.replace Row.path r.stored c.rows }

/-- `cvmfs_catwriter_insert` -/
def insert (c : Catalog) (r : Row) : Option Catalog :=
  (Keyed.insert Row.path r.stored c.rows).map fun rows => { c with rows := rows }

/-- `cvmfs_catwriter_delete` -/
def delete (c : Catalog) (p : Path) : Catalog :=
  { c with
    rows := Keyed.erase Row.path p c.rows
    chunks := c.chunks.filter fun ch => ch.path ≠ p }

/-- The names directly below a path. -/
def childNames (c : Catalog) (p : Path) : List Bytes :=
  c.rows.filterMap fun r => if r.path.dropLast = p then r.path.getLast? else none

/-- `delete_subtree_rec`, with so many levels allowed -/
def deleteSubtreeRec : ℕ → Path → Catalog → Option Catalog
  | 0, _, _ => none
  | levels + 1, p, c =>
    ((c.childNames p).foldlM (fun c name => deleteSubtreeRec levels (p ++ [name]) c) c).map
      fun c => c.delete p

/-- The depth at which `delete_subtree_rec` gives up is behind 128. -/
def deleteLevels : ℕ := 129

/-- `cvmfs_catwriter_delete_subtree`, where `glob p q` is what SQLite says of `q GLOB 'p/*'` -/
def deleteSubtree (glob : Path → Path → Bool) (p : Path) (c : Catalog) : Option Catalog :=
  deleteSubtreeRec deleteLevels p
    { c with nested := c.nested.filter fun n => ¬(n.1 = p ∨ glob p n.1 = true) }

/-- `cvmfs_catwriter_add_chunk` -/
def addChunk (c : Catalog) (ch : Chunk) : Option Catalog :=
  (Keyed.insert Chunk.key ch c.chunks).map fun chunks => { c with chunks := chunks }

/-- `cvmfs_catwriter_set_nested` -/
def setNested (c : Catalog) (p : Path) (child : Catalog) : Catalog :=
  { c with nested := Keyed.replace Prod.fst (p, child) c.nested }

/-- `cvmfs_catwriter_del_nested` -/
def delNested (c : Catalog) (p : Path) : Catalog :=
  { c with nested := Keyed.erase Prod.fst p c.nested }

/-- What `cvmfs_catwriter_update_counters` counts in the rows -/
def count (c : Catalog) : Counter → ℤ
  | .regular => c.rows.countP fun r => r.isFile && !r.isChunked
  | .chunked => c.rows.countP fun r => r.isChunked
  | .chunks => c.chunks.length
  | .dir => c.rows.countP fun r => r.isDir && decide (r.path ≠ [])
  | .symlink => c.rows.countP fun r => r.isLink
  | .nested => c.nested.length
  | .fileSize => ((c.rows.filter fun r => r.isFile && !r.isChunked).map fun r => (r.size : ℤ)).sum
  | .chunkedSize => ((c.rows.filter fun r => r.isChunked).map fun r => (r.size : ℤ)).sum
  | .xattr => c.rows.countP fun r => decide (r.xattr ≠ [])

/-- `cvmfs_catwriter_update_counters` -/
def updateCounters (c : Catalog) : Catalog := { c with self := c.count, subtree := fun _ => 0 }

end Catalog

end BrixCache.Publish
