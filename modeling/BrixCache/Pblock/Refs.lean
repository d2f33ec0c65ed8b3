import BrixCache.Cas.PackFormat
import BrixCache.Pblock.Blocks

/-!
# Shared blobs

`pblock_refs.c`, and the calls of the driver that go through it, on an export whose
`dedup` gate is armed: several object rows may name one blob, and its row in the
`blobs` table counts them; a blob without one has one reference. Each call is a
`Proc` over the two tables and the block files, whose steps are the statements and
the file calls, and what a step meets comes with the call. Directories, packed
blobs, transforms and the other optional tables are not in the model.
-/

namespace BrixCache

open Function

/-- `content_hash`: a digest is trusted, a checksum only nominates. -/
inductive ContentHash (D : Type) : Type where
  | sha256 : D → ContentHash D
  | crc32 : UInt32 → ContentHash D
  deriving DecidableEq

/-- A sha256 match is taken without a byte compare. -/
def ContentHash.trusted {D : Type} : ContentHash D → Bool
  | .sha256 _ => true
  | .crc32 _ => false

/-- `pblock_meta`: a file's row in the `objects` table. -/
structure PblockMeta (B : Type) : Type where
  blob : B
  size : ℕ
  bs : ℕ+

/-- A row of the `blobs` table. -/
structure BlobRow (D : Type) : Type where
  refcount : ℕ
  size : ℕ
  bs : ℕ+
  /-- none for the empty string -/
  hash : Option (ContentHash D)

/-- The two tables of the catalog: paths and reference counts -/
structure PblockTables (P B D : Type) : Type where
  objects : P → Option (PblockMeta B)
  blobs : B → Option (BlobRow D)

/-- The catalog of an export and its block files. -/
structure PblockExport (P B D : Type) : Type where
  objects : P → Option (PblockMeta B)
  blobs : B → Option (BlobRow D)
  /-- the tables an open transaction goes back to -/
  saved : Option (PblockTables P B D)
  files : B → Blocks
  /-- a block file of the blob was there and has been unlinked -/
  lost : B → Bool

variable {P B D : Type}

namespace PblockExport

variable (st : PblockExport P B D)

/-! ## What is read -/

/-- The blob that a path's row names. -/
def holds (p : P) : Option B := (st.objects p).map (·.blob)

/-- A blob without a row has one owner. -/
def refsCount (b : B) : ℕ :=
  match st.blobs b with
  | none => 1
  | some r => max r.refcount 1

/-- `refs_stored_hash` -/
def storedHash (b : B) : Option (ContentHash D) := (st.blobs b).bind (·.hash)

/-- The bytes of an object, read from its first to its last; the open asks for
block 0. -/
def readObject (o : PblockMeta B) : Option (List UInt8) :=
  if (st.files o.blob 0).isNone then none
  else some (pblockReadBlocks (st.files o.blob) o.bs o.size 0)

/-- The bytes readable at a path. -/
def readPath (p : P) : Option (List UInt8) := (st.objects p).bind st.readObject

/-! ## Transactions -/

/-- `BEGIN IMMEDIATE` -/
def beginTx : PblockExport P B D := { st with saved := some ⟨st.objects, st.blobs⟩ }

/-- `COMMIT` -/
def commitTx : PblockExport P B D := { st with saved := none }

/-- `ROLLBACK`, and what the next open of the catalog does with what a crash left. -/
def recover : PblockExport P B D :=
  match st.saved with
  | none => st
  | some t => { st with objects := t.objects, blobs := t.blobs, saved := none }

/-! ## Statements and file calls -/

variable [DecidableEq P] [DecidableEq B]

/-- A path's row replaced or deleted. -/
def setObject (p : P) (row : Option (PblockMeta B)) : PblockExport P B D :=
  { st with objects := update st.objects p row }

/-- A blob's row replaced or deleted. -/
def setBlob (b : B) (row : Option (BlobRow D)) : PblockExport P B D :=
  { st with blobs := update st.blobs b row }

/-- `pblock_refs_track` -/
def track (b : B) (size : ℕ) (bs : ℕ+) (hash : Option (ContentHash D)) : PblockExport P B D :=
  match st.blobs b with
  | none => st.setBlob b (some ⟨1, size, bs, hash⟩)
  | some r => st.setBlob b (some ⟨r.refcount, size, bs, hash⟩)

/-- `pblock_refs_bump` -/
def bump (b : B) (size : ℕ) (bs : ℕ+) : PblockExport P B D :=
  match st.blobs b with
  | none => st.setBlob b (some ⟨2, size, bs, none⟩)
  | some r => st.setBlob b (some { r with refcount := r.refcount + 1 })

/-- The UPDATE of `pblock_refs_release`. -/
def lower (b : B) : PblockExport P B D :=
  st.setBlob b ((st.blobs b).map fun r => { r with refcount := r.refcount - 1 })

/-- `refs_repoint`: a path without a row stays without one. -/
def repoint (p : P) (b : B) : PblockExport P B D :=
  st.setObject p ((st.objects p).map fun o => { o with blob := b })

/-- The UPDATE of `pblock_catalog_rename`. -/
def moveObject (src dst : P) : PblockExport P B D :=
  (st.setObject src none).setObject dst (st.objects src)

/-- Block file `k` is written whole, or made. -/
def putBlock (b : B) (k : ℕ) (bytes : List UInt8) : PblockExport P B D :=
  { st with files := update st.files b (update (st.files b) k (some bytes)) }

/-- One `pwrite` of the block engine. -/
def putPiece (b : B) (piece : BlockPiece) : PblockExport P B D :=
  { st with files := update st.files b (piece.put (st.files b)) }

/-- Block file `k` is unlinked. -/
def dropBlock (b : B) (k : ℕ) : PblockExport P B D :=
  { st with
    files := update st.files b (update (st.files b) k none)
    lost := update st.lost b (st.lost b || (st.files b k).isSome) }

end PblockExport

open Proc

variable [DecidableEq P] [DecidableEq B]

/-! ## Releasing a reference -/

/-- Which steps of `pblock_refs_release` succeed -/
structure ReleaseIo : Type where
  counts : Bool
  /-- the DELETE of the tracking row -/
  drops : Bool
  /-- the UPDATE that counts down -/
  lowers : Bool
  /-- the `unlink` of block file `k` -/
  unlinks : ℕ → Bool

/-- Block file `k` of an object is unlinked, if it is there. -/
def refsUnlinkBlock (unlinks : ℕ → Bool) (o : PblockMeta B) (k : ℕ) :
    Proc (PblockExport P B D) Unit := do
  let here ← gets fun st => (st.files o.blob k).isSome
  let _ ← attempt (here && unlinks k) fun st => st.dropBlock o.blob k
  pure ()

/-- `pblock_remove_blocks`, through `refs_remove` -/
def refsRemove (unlinks : ℕ → Bool) (o : PblockMeta B) : Proc (PblockExport P B D) Unit :=
  forEach (refsUnlinkBlock unlinks o) (List.range (pblockLastBlock o.size o.bs + 1))

def pblockRefsRelease (io : ReleaseIo) (o : PblockMeta B) : Proc (PblockExport P B D) Unit := do
  let n ← gets fun st => st.refsCount o.blob
  if !io.counts then pure ()
  else if n ≤ 1 then
    -- the row goes first, and nobody asks whether it went
    let _ ← attempt io.drops fun st => st.setBlob o.blob none
    refsRemove io.unlinks o
  else
    let _ ← attempt io.lowers fun st => st.lower o.blob
    pure ()

/-! ## Folding a blob onto an identical one -/

/-- Which steps of a fold succeed -/
structure FoldIo (B : Type) : Type where
  /-- the lookup of the path -/
  looksUp : Bool
  counts : Bool
  /-- the SELECT of the recorded hash -/
  reads : Bool
  /-- the blob is read back, with a digest -/
  hashes : Bool
  digests : Bool
  /-- the blobs in the order the SELECT comes to them, as far as it gets -/
  rows : List B
  /-- both blobs are readable -/
  compares : B → Bool
  bumps : Bool
  repoints : Bool
  tracks : Bool
  /-- the release of the survivor when the row cannot be switched -/
  undo : ReleaseIo
  /-- the release of the path's own blob -/
  own : ReleaseIo

/-- How a fold ends -/
inductive FoldRc (B : Type) : Type where
  | kept
  | folded (survivor : B)
  | failed

variable [DecidableEq D]

/-- The WHERE clause of the candidates. -/
def PblockExport.nominates (st : PblockExport P B D) (o : PblockMeta B) (h : ContentHash D)
    (c : B) : Bool :=
  match st.blobs c with
  | none => false
  | some r => r.hash = some h ∧ r.size = o.size ∧ r.bs = o.bs ∧ c ≠ o.blob ∧ 1 ≤ r.refcount

/-- `refs_same_bytes` -/
def PblockExport.sameBytes (st : PblockExport P B D) (o : PblockMeta B) (c : B) : Bool :=
  pblockReadBlocks (st.files o.blob) o.bs o.size 0 = pblockReadBlocks (st.files c) o.bs o.size 0

/-- The candidate the loop of `refs_fold_by_hash` stops at. -/
def PblockExport.survivor (st : PblockExport P B D) (io : FoldIo B) (o : PblockMeta B)
    (h : ContentHash D) : Option B :=
  io.rows.find? fun c => st.nominates o h c && (h.trusted || (io.compares c && st.sameBytes o c))

/-- Fold the object onto a blob of the same content. -/
def refsFoldByHash (io : FoldIo B) (path : P) (o : PblockMeta B) (h : ContentHash D) :
    Proc (PblockExport P B D) (FoldRc B) := do
  let found ← gets fun st => st.survivor io o h
  match found with
  | none => pure .kept
  | some c =>
    let bumped ← attempt io.bumps fun st => st.bump c o.size o.bs
    if !bumped then pure .kept
    else
      let repointed ← attempt io.repoints fun st => st.repoint path c
      if !repointed then
        pblockRefsRelease io.undo { o with blob := c }
        pure .failed
      else
        pblockRefsRelease io.own o
        pure (.folded c)

/-- The `pblock_refs_track` of a publish. -/
def refsTrackKept (io : FoldIo B) (o : PblockMeta B) (hash : Option (ContentHash D)) :
    Proc (PblockExport P B D) (FoldRc B) := do
  let tracked ← attempt io.tracks fun st => st.track o.blob o.size o.bs hash
  pure (if tracked then .kept else .failed)

/-- Deduplicate at the publish of a staged file. -/
def pblockRefsDedupPublish (io : FoldIo B) (path : P) (o : PblockMeta B)
    (hash : Option (ContentHash D)) : Proc (PblockExport P B D) (FoldRc B) := do
  let n ← gets fun st => st.refsCount o.blob
  match hash with
  | none => refsTrackKept io o none
  | some h =>
    if o.size = 0 ∨ !io.counts ∨ n ≠ 1 then refsTrackKept io o (some h)
    else
      let rc ← refsFoldByHash io path o h
      match rc with
      | .kept => refsTrackKept io o (some h)
      | .folded c => pure (.folded c)
      | .failed => pure .failed

/-- `refs_compute_hash`, with `digest` as the write verifier's SHA-256. -/
def refsComputeHash (digest : List UInt8 → D) (digests : Bool) (bytes : List UInt8) :
    ContentHash D :=
  if digests then .sha256 (digest bytes) else .crc32 (crc32 bytes)

def pblockRefsDedupExisting (digest : List UInt8 → D) (io : FoldIo B) (path : P) :
    Proc (PblockExport P B D) (FoldRc B) := do
  let row ← gets fun st => st.objects path
  match row with
  | none => pure .failed
  | some o =>
    let n ← gets fun st => st.refsCount o.blob
    if !io.looksUp then pure .failed
    else if o.size = 0 ∨ !io.counts ∨ n ≠ 1 then pure .kept
    else
      let stored ← gets fun st => st.storedHash o.blob
      let bytes ← gets fun st => pblockReadBlocks (st.files o.blob) o.bs o.size 0
      if !io.reads then pure .failed
      else
        match stored with
        | some h => refsFoldByHash io path o h
        | none =>
          if !io.hashes then pure .failed
          else
            let h := refsComputeHash digest io.digests bytes
            let tracked ← attempt io.tracks fun st => st.track o.blob o.size o.bs (some h)
            if !tracked then pure .failed
            else refsFoldByHash io path o h

/-! ## Breaking a share -/

/-- What an open that means to write meets. -/
structure BreakIo : Type where
  /-- the lookup of the path -/
  looksUp : Bool
  counts : Bool
  /-- an id is drawn, and its directory made -/
  ids : Bool
  /-- block file `k` of the fresh blob is made -/
  creates : ℕ → Bool
  /-- bytes of block `k` that get across -/
  copied : ℕ → ℕ
  /-- a half made blob is unlinked -/
  cleans : ℕ → Bool
  repoints : Bool
  tracks : Bool
  old : ReleaseIo
  opens : Bool

/-- The copying loop of `refs_populate_private`: `pblock_copy_one_block` for each of
the blocks, of which one that is not there is a hole. -/
def refsCopyBlocks (io : BreakIo) (src fresh : B) : List ℕ → Proc (PblockExport P B D) Bool
  | [] => pure true
  | k :: ks => do
    let source ← gets fun st => st.files src k
    match source with
    | none => refsCopyBlocks io src fresh ks
    | some bytes =>
      let free ← gets fun st => (st.files fresh k).isNone
      let made ← attempt (io.creates k && free) fun st => st.putBlock fresh k []
      if !made then pure false
      else
        step fun st => st.putBlock fresh k (bytes.take (io.copied k))
        if io.copied k < bytes.length then pure false
        else refsCopyBlocks io src fresh ks

/-- Fill the private blob of a broken share. -/
def refsPopulatePrivate (io : BreakIo) (o : PblockMeta B) (fresh : B) (trunc : Bool) :
    Proc (PblockExport P B D) Bool := do
  if trunc then
    let free ← gets fun st => (st.files fresh 0).isNone
    attempt (io.creates 0 && free) fun st => st.putBlock fresh 0 []
  else
    let done ← refsCopyBlocks io o.blob fresh (List.range (pblockLastBlock o.size o.bs + 1))
    if done then pure true
    else
      refsRemove io.cleans { o with blob := fresh }
      pure false

/-- `pblock_refs_break_share`: the row the object then has, or none for an error. -/
def pblockRefsBreakShare (io : BreakIo) (path : P) (o : PblockMeta B) (fresh : B) (trunc : Bool) :
    Proc (PblockExport P B D) (Option (PblockMeta B)) := do
  let n ← gets fun st => st.refsCount o.blob
  if !io.counts then pure none
  else if n ≤ 1 then pure (some o)
  else if !io.ids then pure none
  else
    let populated ← refsPopulatePrivate io o fresh trunc
    if !populated then pure none
    else
      let repointed ← attempt io.repoints fun st => st.repoint path fresh
      if !repointed then
        refsRemove io.cleans { o with blob := fresh }
        pure none
      else
        let _ ← attempt io.tracks fun st => st.track fresh o.size o.bs none
        pblockRefsRelease io.old o
        pure (some { o with blob := fresh })

/-- `pblock_prepare_existing_fd`, of an open that means to write. -/
def pblockPrepareExistingFd (io : BreakIo) (path : P) (fresh : B) (trunc : Bool) :
    Proc (PblockExport P B D) (Option (PblockMeta B)) := do
  let row ← gets fun st => st.objects path
  match row with
  | none => pure none
  | some o =>
    if !io.looksUp then pure none
    else
      let broken ← pblockRefsBreakShare io path o fresh trunc
      match broken with
      | none => pure none
      | some o' =>
        let block0 ← gets fun st => (st.files o'.blob 0).isSome
        pure (if io.opens && block0 then some o' else none)

/-! ## The calls of the driver -/

/-- What `pblock_catalog_remove` meets. -/
structure RemoveIo : Type where
  row : Bool
  /-- the DELETE of its attributes -/
  xattrs : Bool

def pblockCatalogRemove (io : RemoveIo) (path : P) : Proc (PblockExport P B D) Bool := do
  let removed ← attempt io.row fun st => st.setObject path none
  pure (removed && io.xattrs)

/-- What a removal meets: lookups, gates (leases, quota, preconditions), release and row. -/
structure DropIo : Type where
  looksUp : Bool
  gates : Bool
  release : ReleaseIo
  remove : RemoveIo

/-- `sd_pblock_drop_dst`, and the end of `sd_pblock_unlink`: the blob is released and
the row removed. -/
def sdPblockDropDst (io : DropIo) (path : P) (o : PblockMeta B) :
    Proc (PblockExport P B D) Bool := do
  pblockRefsRelease io.release o
  pblockCatalogRemove io.remove path

/-- Remove the row, then release its blob. -/
def sdPblockUnlink (io : DropIo) (path : P) : Proc (PblockExport P B D) Bool := do
  let row ← gets fun st => st.objects path
  match row with
  | none => pure false
  | some o => if !io.looksUp ∨ !io.gates then pure false else sdPblockDropDst io path o

/-- `sd_pblock_rename`; `moves` is the transaction of `pblock_catalog_rename`. -/
def sdPblockRename (io : DropIo) (moves noreplace : Bool) (src dst : P) :
    Proc (PblockExport P B D) Bool := do
  let row ← gets fun st => st.objects src
  let drow ← gets fun st => st.objects dst
  if row.isNone ∨ !io.looksUp ∨ !io.gates then pure false
  else
    let cleared ← match drow with
      | none => pure true
      | some old => if noreplace then pure false else sdPblockDropDst io dst old
    if !cleared then pure false
    else
      let still ← gets fun st => (st.objects src).isSome
      attempt (moves && still) fun st => st.moveObject src dst

/-- Which steps of a copy succeed -/
structure CopyIo : Type where
  looksUp : Bool
  /-- the lookup of the destination -/
  looksUpDst : Bool
  bumps : Bool
  puts : Bool
  undo : ReleaseIo
  old : ReleaseIo

/-- `pblock_copy_cow`, of `sd_pblock_server_copy_as` -/
def pblockCopyCow (io : CopyIo) (src dst : P) : Proc (PblockExport P B D) Bool := do
  let row ← gets fun st => st.objects src
  let drow ← gets fun st => st.objects dst
  match row with
  | none => pure false
  | some o =>
    if !io.looksUp then pure false
    else
      let bumped ← attempt io.bumps fun st => st.bump o.blob o.size o.bs
      if !bumped then pure false
      else
        let put ← attempt io.puts fun st => st.setObject dst (some o)
        if !put then
          pblockRefsRelease io.undo o
          pure false
        else
          match drow with
          | none => pure true
          | some old =>
            if io.looksUpDst then
              pblockRefsRelease io.old old
              pure true
            else pure true

/-- What an open that makes a file meets. -/
structure CreateIo : Type where
  ids : Bool
  creates : Bool
  puts : Bool
  tracks : Bool
  cleans : ℕ → Bool

/-- `pblock_open_absent` with `O_CREATE`: `pblock_open_create` -/
def pblockOpenAbsent (io : CreateIo) (path : P) (fresh : B) (bs : ℕ+) :
    Proc (PblockExport P B D) (Option (PblockMeta B)) := do
  let row ← gets fun st => st.objects path
  let free ← gets fun st => (st.files fresh 0).isNone
  if row.isSome ∨ !io.ids then pure none
  else
    let made ← attempt (io.creates && free) fun st => st.putBlock fresh 0 []
    if !made then pure none
    else
      let put ← attempt io.puts fun st => st.setObject path (some ⟨fresh, 0, bs⟩)
      if !put then
        refsRemove io.cleans ⟨fresh, 0, bs⟩
        pure none
      else
        let _ ← attempt io.tracks fun st => st.track fresh 0 bs none
        pure (some ⟨fresh, 0, bs⟩)

/-! ## Staged publishing -/

/-- `sd_pblock_staged_write`, as far as it gets -/
def sdPblockStagedWrite (b : B) (bs : ℕ+) (data : List UInt8) (off : ℕ) :
    Proc (PblockExport P B D) Unit :=
  forEach (fun piece => step fun st => st.putPiece b piece) (blockPieces bs data off)

/-- What a staged commit meets. -/
structure CommitIo (B : Type) : Type where
  begins : Bool
  drop : DropIo
  puts : Bool
  commits : Bool
  fold : FoldIo B

/-- `pblock_staged_prepare_destination`: an overwritten row is dropped. -/
def pblockStagedPrepareDestination (io : DropIo) (path : P) : Proc (PblockExport P B D) Bool := do
  let row ← gets fun st => st.objects path
  if !io.looksUp ∨ !io.gates then pure false
  else
    match row with
    | none => pure true
    | some old => sdPblockDropDst io path old

/-- The statements between `BEGIN` and `COMMIT`. -/
def pblockStagedTx (io : CommitIo B) (path : P) (o : PblockMeta B) :
    Proc (PblockExport P B D) Bool := do
  let prepared ← pblockStagedPrepareDestination io.drop path
  attempt (prepared && io.puts) fun st => st.setObject path (some o)

/-- The transaction of `sd_pblock_staged_commit`. -/
def pblockStagedPut (io : CommitIo B) (path : P) (o : PblockMeta B) :
    Proc (PblockExport P B D) Bool := do
  let begun ← attempt io.begins fun st => st.beginTx
  if !begun then pure false
  else
    let put ← pblockStagedTx io path o
    let committed ← attempt (put && io.commits) fun st => st.commitTx
    if committed then pure true
    else
      step fun st => st.recover
      pure false

/-- Publish a staged file, then try to fold it. -/
def sdPblockStagedCommit (io : CommitIo B) (path : P) (o : PblockMeta B)
    (hash : Option (ContentHash D)) : Proc (PblockExport P B D) Bool := do
  let published ← pblockStagedPut io path o
  if !published then pure false
  else
    let _ ← pblockRefsDedupPublish io.fold path o hash
    pure true

end BrixCache
