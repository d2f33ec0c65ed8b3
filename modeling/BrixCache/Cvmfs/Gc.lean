import BrixCache.Cvmfs.Hash
import BrixCache.Lib.Keyed
import BrixCache.Lib.MarkSweep
import Mathlib.Data.List.Sort

/-!
# Garbage collection of a repository

`cvmfs_gc_run` of `shared/cvmfs/publish/admin.c`, over the reflog of `reflog/reflog.c`: the root
catalogs to keep are chosen among those the reflog lists, everything they reach is marked, the
others leave the reflog, the manifest is signed anew, and what is not marked is unlinked.

Inflating, SQLite and SHA-1 are parameters, a database is what the queries give of it. A call
that can fail for other reasons ends the run with an error, as those here do; the test hook that
leaves chunks unmarked is not set.
-/

namespace BrixCache

/-! ## The repository -/

/-- A row of `refs`. -/
structure ReflogRow : Type where
  hash : Bytes
  /-- `cvmfs_reflog_type_e`; `0` is a catalog -/
  type : ℤ
  timestamp : ℤ
  deriving DecidableEq

namespace ReflogRow

def key (r : ReflogRow) : Bytes × ℤ := (r.hash, r.type)

end ReflogRow

/-- `cvmfs_manifest_t`, as it is parsed and verified. -/
structure CvmfsManifest : Type where
  rootCatalog : CvmfsHash
  catalogSize : ℕ
  certificate : CvmfsHash
  history : Option CvmfsHash
  reflogChecksum : Option CvmfsHash
  revision : ℤ
  deriving DecidableEq

/-- A file of the object store. -/
structure CasFile : Type where
  bytes : Bytes
  mtime : ℤ
  deriving DecidableEq

/-- A repository, the rows of its reflog the newest insertion first. -/
structure CvmfsRepo : Type where
  manifest : CvmfsManifest
  reflog : List ReflogRow
  files : CasName → Option CasFile

/-- What the queries of the mark phase give of a catalog. -/
structure CatalogDb : Type where
  /-- `SELECT hash FROM catalog WHERE hash IS NOT NULL` -/
  hashes : List Bytes
  /-- `SELECT hash FROM chunks` -/
  chunks : List Bytes
  /-- `SELECT sha1 FROM nested_catalogs` -/
  nested : List Bytes

/-- What a run keeps -/
structure GcOpts : Type where
  keepN : ℤ
  keepSince : ℤ
  graceSeconds : ℤ

/-- What a run reports -/
structure GcStats : Type where
  keptRevisions : ℕ
  droppedRevisions : ℕ
  sweptObjects : ℕ

/-- What is outside the code, and how its calls go. -/
structure GcEnv : Type where
  /-- `cvmfs_object_hash` of a stored object -/
  sha1 : Bytes → CvmfsDigest
  catalogOf : Bytes → Option CatalogDb
  /-- the hashes of the tags of a stored history database -/
  tagsOf : Bytes → Option (List Bytes)
  /-- `mkdir` of the lock directory -/
  locks : Bool
  /-- `pub_load_and_verify` -/
  verifies : Bool
  reflogSum : Option CvmfsHash
  /-- the checksum of the file that is written -/
  newReflogSum : CvmfsHash
  /-- is the reflog pruned, the manifest signed and renamed? -/
  swaps : Bool
  /-- the clock when the manifest is signed, and when the sweep starts -/
  signTime : ℤ
  sweepTime : ℤ
  /-- the entries `readdir` gives of a directory, none if it cannot be opened -/
  readdir : Bytes → List Bytes
  unlinks : CasName → Bool

/-- What a run reports. -/
inductive GcError : Type where
  /-- "gc needs --keep N or --keep-since T" -/
  | needsKeep : GcError
  /-- "transaction in progress … gc refused" -/
  | locked : GcError
  /-- "current manifest fails verification" -/
  | unverified : GcError
  /-- "manifest carries no reflog checksum — gc refused" -/
  | noChecksum : GcError
  /-- "reflog required for gc: cannot read" -/
  | noReflog : GcError
  /-- "reflog checksum mismatch — refusing to sweep" -/
  | mismatch : GcError
  /-- "object … missing" -/
  | missing (k : CvmfsKey) : GcError
  /-- "object … fails CAS verification" -/
  | corrupt (k : CvmfsKey) : GcError
  /-- "cannot open catalog for marking" -/
  | catalog (k : CvmfsKey) : GcError
  /-- "catalog nesting too deep" -/
  | tooDeep : GcError
  /-- "catalog mark scan failed" -/
  | markScan : GcError
  /-- "malformed nested_catalogs row" -/
  | malformedNested : GcError
  /-- "cannot read tag database for gc pinning" -/
  | tags : GcError
  /-- "cannot prune", "cannot swap manifest" -/
  | swap : GcError

/-! ## Marking -/

def reflogCatalog : ℤ := 0

/-- The letters of `gc_collect_cb`: catalogs `C`, certificates `X`, histories `H`, meta-infos
`M`. -/
def gcSuffix (type : ℤ) : CvmfsSuffix := [67, 88, 72, 77].getD (type % 4).toNat 0

/-- A root catalog the reflog lists, `gc_ref_t`. -/
structure GcRef : Type where
  hash : CvmfsHash
  timestamp : ℤ
  deriving DecidableEq

/-- `cvmfs_reflog_list`: the newest first, of one time the newest insertion; a hash that cannot be
parsed is passed over. -/
def cvmfsReflogList (rows : List ReflogRow) : List (CvmfsHash × ReflogRow) :=
  (rows.insertionSort fun a b => b.timestamp ≤ a.timestamp).filterMap fun r =>
    (CvmfsHash.parse r.hash).map fun h => (h, r)

/-- `gc_collect`, the catalogs. -/
def gcCatalogs (rows : List ReflogRow) : List GcRef :=
  (cvmfsReflogList rows).filterMap fun (h, r) =>
    if r.type = reflogCatalog then some ⟨h, r.timestamp⟩ else none

/-- `gc_collect`, what is marked directly. -/
def gcDirect (rows : List ReflogRow) : List CvmfsKey :=
  (cvmfsReflogList rows).filterMap fun (h, r) =>
    if r.type = reflogCatalog then none else some (h.digest, gcSuffix r.type)

/-- `pub_fetch_object`, before it is inflated. -/
def pubFetchObject (env : GcEnv) (files : CasName → Option CasFile) (h : CvmfsHash)
    (suffix : CvmfsSuffix) : Except GcError Bytes :=
  match files (casName (h.digest, suffix)) with
  | none => .error (.missing (h.digest, suffix))
  | some f =>
    if (⟨.sha1, env.sha1 f.bytes⟩ : CvmfsHash) = h then .ok f.bytes
    else .error (.corrupt (h.digest, suffix))

/-- Fetch and open a catalog object. -/
def gcOpenCatalog (env : GcEnv) (files : CasName → Option CasFile) (h : CvmfsHash) :
    Except GcError CatalogDb :=
  match pubFetchObject env files h 67 with
  | .error e => .error e
  | .ok bytes =>
    match env.catalogOf bytes with
    | none => .error (.catalog (h.digest, 67))
    | some db => .ok db

/-- A turn of `gc_mark_blob_col`. -/
def gcMarkBlob (suffix : CvmfsSuffix) (mark : List CvmfsKey) (blob : Bytes) :
    Except GcError (List CvmfsKey) :=
  if h : blob.length = 20 then .ok (mark ++ [(⟨blob, h⟩, suffix)]) else .error .markScan

/-- Mark every hash of a column. -/
def gcMarkBlobCol (blobs : List Bytes) (suffix : CvmfsSuffix) (mark : List CvmfsKey) :
    Except GcError (List CvmfsKey) :=
  blobs.foldlM (gcMarkBlob suffix) mark

/-- `gc_mark_catalog` and `gc_mark_nested`, with the levels that are left. -/
def gcMarkCatalog (env : GcEnv) (files : CasName → Option CasFile) :
    ℕ → CvmfsHash → List CvmfsKey → Except GcError (List CvmfsKey)
  | 0, _, _ => .error .tooDeep
  | levels + 1, h, mark => do
    let mark := mark ++ [(h.digest, 67)]
    let db ← gcOpenCatalog env files h
    let mark ← gcMarkBlobCol db.hashes 0 mark
    let mark ← gcMarkBlobCol db.chunks 80 mark
    db.nested.foldlM (fun mark hex =>
      match CvmfsHash.parse hex with
      | none => .error .malformedNested
      | some child => gcMarkCatalog env files levels child mark) mark

/-- The root is at depth 0, and 64 is the last depth that is walked. -/
def gcLevels : ℕ := 65

/-- The roots of the tag history. -/
def gcLoadPins (env : GcEnv) (repo : CvmfsRepo) : Except GcError (List CvmfsHash) :=
  match repo.manifest.history with
  | none => .ok []
  | some h => do
    let bytes ← pubFetchObject env repo.files h 72
    match env.tagsOf bytes with
    | none => .error .tags
    | some tags => .ok (tags.filterMap CvmfsHash.parse)

/-- The current root, the newest, the recent and the tagged stay. -/
def gcKeep (o : GcOpts) (man : CvmfsManifest) (pins : List CvmfsHash) (r : GcRef) (idx : ℕ) :
    Bool :=
  r.hash = man.rootCatalog || (0 < o.keepN && idx < o.keepN) ||
    (0 < o.keepSince && o.keepSince ≤ r.timestamp) || pins.contains r.hash

/-- The loop of `gc_mark_kept` from ref `idx` on: the marks, the refs to drop, and how many are
kept. -/
def gcMarkKept (env : GcEnv) (o : GcOpts) (repo : CvmfsRepo) (pins : List CvmfsHash) :
    ℕ → List GcRef → List CvmfsKey → Except GcError (List CvmfsKey × List GcRef × ℕ)
  | _, [], mark => .ok (mark, [], 0)
  | idx, r :: refs, mark =>
    if gcKeep o repo.manifest pins r idx then do
      let mark ← gcMarkCatalog env repo.files gcLevels r.hash mark
      let (mark, drop, kept) ← gcMarkKept env o repo pins (idx + 1) refs mark
      .ok (mark, drop, kept + 1)
    else do
      let (mark, drop, kept) ← gcMarkKept env o repo pins (idx + 1) refs mark
      .ok (mark, r :: drop, kept)

/-- What `gc_mark_kept` marks at its end. -/
def gcManifestKeys (man : CvmfsManifest) : List CvmfsKey :=
  (man.certificate.digest, 88) :: (man.history.map fun h => (h.digest, 72)).toList

/-! ## Dropping and sweeping -/

/-- `cvmfs_reflog_del` of a catalog. -/
def cvmfsReflogDel (rows : List ReflogRow) (h : CvmfsHash) : List ReflogRow :=
  Keyed.erase ReflogRow.key (h.digest.hex, reflogCatalog) rows

/-- `cvmfs_reflog_add` of a catalog. -/
def cvmfsReflogAdd (rows : List ReflogRow) (h : CvmfsHash) (timestamp : ℤ) : List ReflogRow :=
  Keyed.replace ReflogRow.key ⟨h.digest.hex, reflogCatalog, timestamp⟩ rows

/-- `gc_drop_refs`: the refs are pruned, and the root is added again as the manifest is
signed. -/
def gcDropRefs (env : GcEnv) (repo : CvmfsRepo) (drop : List GcRef) : Except GcError CvmfsRepo :=
  if env.swaps then
    .ok { repo with
      reflog := cvmfsReflogAdd (drop.foldl (fun rows r => cvmfsReflogDel rows r.hash) repo.reflog)
        repo.manifest.rootCatalog env.signTime
      manifest := { repo.manifest with reflogChecksum := some env.newReflogSum } }
  else .error .swap

/-- Does `gc_sweep_dir` unlink a file? -/
def gcGone (env : GcEnv) (mark : List CvmfsKey) (cutoff : ℤ) (n : CasName) (f : CasFile) : Bool :=
  match gcParseName n.1 n.2 with
  | none => false
  | some key => !mark.contains key && !decide (cutoff < f.mtime) && env.unlinks n

/-- A turn of `gc_sweep_dir`. -/
def gcSweepEntry (env : GcEnv) (mark : List CvmfsKey) (cutoff : ℤ)
    (s : (CasName → Option CasFile) × ℕ) (n : CasName) : (CasName → Option CasFile) × ℕ :=
  match s.1 n with
  | none => s
  | some f =>
    if gcGone env mark cutoff n f then (Function.update s.1 n none, s.2 + 1) else s

def casDirs : List Bytes :=
  (List.range 256).map fun i =>
    [CvmfsDigest.hexDigit (i / 16), CvmfsDigest.hexDigit (i % 16)]

/-- `gc_sweep_dir` of every directory. -/
def gcSweep (env : GcEnv) (mark : List CvmfsKey) (cutoff : ℤ) (files : CasName → Option CasFile) :
    (CasName → Option CasFile) × ℕ :=
  casDirs.foldl (fun s dir2 =>
    ((env.readdir dir2).map fun name => (dir2, name)).foldl (gcSweepEntry env mark cutoff) s)
    (files, 0)

/-- Objects that are younger are not swept. -/
def gcCutoff (env : GcEnv) (o : GcOpts) : ℤ :=
  env.sweepTime - if 0 < o.graceSeconds then o.graceSeconds else 0

/-- The reflog is the one the manifest signs. -/
def gcCheckReflog (env : GcEnv) (man : CvmfsManifest) : Except GcError Unit :=
  match man.reflogChecksum with
  | none => .error .noChecksum
  | some want =>
    match env.reflogSum with
    | none => .error .noReflog
    | some got => if got = want then .ok () else .error .mismatch

/-- Check, mark and sweep. -/
def cvmfsGcRun (env : GcEnv) (o : GcOpts) (repo : CvmfsRepo) :
    Except GcError (GcStats × CvmfsRepo) :=
  if o.keepN ≤ 0 ∧ o.keepSince ≤ 0 then .error .needsKeep
  else if !env.locks then .error .locked
  else if !env.verifies then .error .unverified
  else do
    gcCheckReflog env repo.manifest
    let pins ← gcLoadPins env repo
    let (mark, drop, kept) ←
      gcMarkKept env o repo pins 0 (gcCatalogs repo.reflog) (gcDirect repo.reflog)
    let repo' ← gcDropRefs env repo drop
    let mark := mark ++ gcManifestKeys repo.manifest
    let (files, swept) := gcSweep env mark (gcCutoff env o) repo'.files
    .ok (⟨kept, drop.length, swept⟩, { repo' with files := files })

end BrixCache

/-!
## What a collection keeps

A run that succeeds has marked exactly what the kept roots of the reflog reach, its other refs, and
the certificate and the history of the manifest.
-/

namespace BrixCache

open MarkSweep List

variable {env : GcEnv} {o : GcOpts} {repo repo' : CvmfsRepo} {files : CasName → Option CasFile}

/-! ### What is marked -/

/-- What is stored as a catalog, whether or not it has the hash it is stored under. -/
def readCatalog (env : GcEnv) (files : CasName → Option CasFile) (h : CvmfsHash) :
    Option CatalogDb :=
  (files (casName (h.digest, 67))).bind fun f => env.catalogOf f.bytes

variable {h : CvmfsHash} {mark mark' : List CvmfsKey} {row : ReflogRow}

theorem readCatalog_of_open {db : CatalogDb}
    (hopen : gcOpenCatalog env files h = .ok db) : readCatalog env files h = some db := by
  rw [gcOpenCatalog, pubFetchObject] at hopen
  rw [readCatalog]
  rcases hfile : files (casName (h.digest, 67)) with _ | f
  · simp [hfile] at hopen
  · simp only [hfile] at hopen
    by_cases hsum : (⟨.sha1, env.sha1 f.bytes⟩ : CvmfsHash) = h
    · simp only [if_pos hsum] at hopen
      rcases hdb : env.catalogOf f.bytes with _ | db'
      · simp [hdb] at hopen
      · simp only [hdb] at hopen
        cases hopen
        exact hdb
    · simp [hsum] at hopen

/-- The objects a catalog names: itself, the contents and chunks of its files, and what its
nested catalogs name. -/
inductive CatalogReach (env : GcEnv) (files : CasName → Option CasFile) :
    CvmfsHash → CvmfsKey → Prop where
  | self (h : CvmfsHash) : CatalogReach env files h (h.digest, 67)
  | content {h : CvmfsHash} {db : CatalogDb} {blob : Bytes}
      (hdb : readCatalog env files h = some db) (hmem : blob ∈ db.hashes)
      (hlen : blob.length = 20) : CatalogReach env files h (⟨blob, hlen⟩, 0)
  | chunk {h : CvmfsHash} {db : CatalogDb} {blob : Bytes}
      (hdb : readCatalog env files h = some db) (hmem : blob ∈ db.chunks)
      (hlen : blob.length = 20) : CatalogReach env files h (⟨blob, hlen⟩, 80)
  | nested {h child : CvmfsHash} {db : CatalogDb} {hex : Bytes} {k : CvmfsKey}
      (hdb : readCatalog env files h = some db) (hmem : hex ∈ db.nested)
      (hchild : CvmfsHash.parse hex = some child) (hk : CatalogReach env files child k) :
      CatalogReach env files h k

theorem gcMarkBlobCol_adds {blobs : List Bytes} {suffix : CvmfsSuffix}
    (h : gcMarkBlobCol blobs suffix mark = .ok mark') :
    Adds (fun k => ∃ blob ∈ blobs, ∃ hlen : blob.length = 20, k = (⟨blob, hlen⟩, suffix))
      mark mark' := by
  refine Adds.foldlM id ?_ h
  intro blob _ mark mark' hstep
  rw [gcMarkBlob] at hstep
  split at hstep
  · rename_i hlen
    cases hstep
    refine (Adds.concat mark _).congr fun k => ⟨fun hk => ⟨hlen, hk⟩, ?_⟩
    rintro ⟨_, hk⟩
    exact hk
  · cases hstep

/-- Marking a catalog adds what it reaches. -/
theorem gcMarkCatalog_adds {levels : ℕ} (hok : gcMarkCatalog env files levels h mark = .ok mark') :
    Adds (CatalogReach env files h) mark mark' := by
  induction levels generalizing h mark mark' with
  | zero => cases hok
  | succ levels ih =>
    rw [gcMarkCatalog] at hok
    obtain ⟨db, hopen, hok⟩ := bind_eq_ok hok
    have hdb := readCatalog_of_open hopen
    obtain ⟨mark₁, hhashes, hok⟩ := bind_eq_ok hok
    obtain ⟨mark₂, hchunks, hnested⟩ := bind_eq_ok hok
    have hchildren := Adds.foldlM id
      (S := fun hex k => ∃ child, CvmfsHash.parse hex = some child ∧ CatalogReach env files child k)
      (fun hex _ m m' hstep => by
        split at hstep
        · cases hstep
        · rename_i child hparse
          refine (ih hstep).congr fun k => ⟨fun hk => ⟨child, hparse, hk⟩, ?_⟩
          rintro ⟨child', hparse', hk⟩
          obtain rfl := Option.some.inj (hparse.symm.trans hparse')
          exact hk) hnested
    refine ((((Adds.concat mark (h.digest, 67)).trans (gcMarkBlobCol_adds hhashes)).trans
      (gcMarkBlobCol_adds hchunks)).trans hchildren).congr fun k => ⟨?_, ?_⟩
    · rintro (((rfl | ⟨blob, hmem, hlen, rfl⟩) | ⟨blob, hmem, hlen, rfl⟩) |
        ⟨hex, hmem, child, hparse, hk⟩)
      · exact .self h
      · exact .content hdb hmem hlen
      · exact .chunk hdb hmem hlen
      · exact .nested hdb hmem hparse hk
    · intro hk
      cases hk with
      | self => exact .inl (.inl (.inl rfl))
      | content hdb' hmem hlen =>
        obtain rfl := Option.some.inj (hdb.symm.trans hdb')
        exact .inl (.inl (.inr ⟨_, hmem, hlen, rfl⟩))
      | chunk hdb' hmem hlen =>
        obtain rfl := Option.some.inj (hdb.symm.trans hdb')
        exact .inl (.inr ⟨_, hmem, hlen, rfl⟩)
      | nested hdb' hmem hchild hk =>
        obtain rfl := Option.some.inj (hdb.symm.trans hdb')
        exact .inr ⟨_, hmem, _, hchild, hk⟩

/-- The revisions that are kept are marked, the others dropped. -/
theorem gcMarkKept_spec {pins : List CvmfsHash} {idx kept : ℕ} {refs drop : List GcRef}
    (hok : gcMarkKept env o repo pins idx refs mark = .ok (mark', drop, kept)) :
    Adds (fun k => ∃ j r, refs[j]? = some r ∧ gcKeep o repo.manifest pins r (idx + j) = true ∧
        CatalogReach env repo.files r.hash k) mark mark' ∧
      ∀ r, r ∈ drop ↔ ∃ j, refs[j]? = some r ∧
        gcKeep o repo.manifest pins r (idx + j) = false := by
  induction refs generalizing idx kept drop mark mark' with
  | nil =>
    obtain ⟨rfl, rfl, -⟩ := Prod.mk.inj (Except.ok.inj hok) |>.imp_right Prod.mk.inj
    exact ⟨(Adds.nothing mark).congr fun k => by simp, fun r => by simp⟩
  | cons r refs ih =>
    -- the refs behind the first one, counted from it
    have hshift : ∀ {kept : Bool} {P : GcRef → Prop},
        (∃ j x, (r :: refs)[j]? = some x ∧ gcKeep o repo.manifest pins x (idx + j) = kept ∧ P x) ↔
          (gcKeep o repo.manifest pins r idx = kept ∧ P r) ∨ ∃ j x, refs[j]? = some x ∧
            gcKeep o repo.manifest pins x (idx + 1 + j) = kept ∧ P x := by
      intro kept P
      constructor
      · rintro ⟨_ | j, x, hx, hkeep, hP⟩
        · cases hx
          exact .inl ⟨hkeep, hP⟩
        · exact .inr ⟨j, x, hx, by rw [Nat.add_assoc, Nat.add_comm 1 j]; exact hkeep, hP⟩
      · rintro (⟨hkeep, hP⟩ | ⟨j, x, hx, hkeep, hP⟩)
        · exact ⟨0, r, rfl, hkeep, hP⟩
        · exact ⟨j + 1, x, hx, by rw [Nat.add_assoc, Nat.add_comm 1 j] at hkeep; exact hkeep, hP⟩
    have hdropped : ∀ x, (∃ j, (r :: refs)[j]? = some x ∧
          gcKeep o repo.manifest pins x (idx + j) = false) ↔
        (gcKeep o repo.manifest pins r idx = false ∧ x = r) ∨ ∃ j, refs[j]? = some x ∧
          gcKeep o repo.manifest pins x (idx + 1 + j) = false := by
      intro x
      have hcases := @hshift false (x = ·)
      simpa using hcases
    rw [gcMarkKept] at hok
    rcases hkeep : gcKeep o repo.manifest pins r idx with _ | _
    · rw [hkeep, if_neg Bool.false_ne_true] at hok
      obtain ⟨⟨mark₁, drop₁, kept₁⟩, hrest, hok⟩ := bind_eq_ok hok
      obtain ⟨rfl, rfl, -⟩ := Prod.mk.inj (Except.ok.inj hok) |>.imp_right Prod.mk.inj
      obtain ⟨hadds, hdrop⟩ := ih hrest
      refine ⟨hadds.congr fun k => ?_, fun x => ?_⟩
      · rw [hshift, hkeep]
        simp
      · rw [hdropped, hkeep, mem_cons, hdrop]
        simp
    · rw [hkeep, if_pos rfl] at hok
      obtain ⟨mark₀, hcatalog, hok⟩ := bind_eq_ok hok
      obtain ⟨⟨mark₁, drop₁, kept₁⟩, hrest, hok⟩ := bind_eq_ok hok
      obtain ⟨rfl, rfl, -⟩ := Prod.mk.inj (Except.ok.inj hok) |>.imp_right Prod.mk.inj
      obtain ⟨hadds, hdrop⟩ := ih hrest
      refine ⟨((gcMarkCatalog_adds hcatalog).trans hadds).congr fun k => ?_, fun x => ?_⟩
      · rw [hshift, hkeep]
        simp
      · rw [hdropped, hkeep, hdrop]
        simp

/-! ### What is swept -/

theorem mem_casDirs (d : CvmfsDigest) : d.hex.take 2 ∈ casDirs := by
  obtain ⟨bytes, hlen⟩ := d
  cases bytes with
  | nil => cases hlen
  | cons b bytes =>
    have hb := b.toNat_lt
    exact mem_map.mpr ⟨b.toNat, mem_range.mpr (by omega), rfl⟩

theorem foldl_gcSweepEntry (mark : List CvmfsKey) (cutoff : ℤ) (entries : List CasName)
    (s : (CasName → Option CasFile) × ℕ) :
    (entries.foldl (gcSweepEntry env mark cutoff) s).1 =
      entries.foldl (sweepOne (gcGone env mark cutoff)) s.1 := by
  induction entries generalizing s with
  | nil => rfl
  | cons n entries ih =>
    have hone : (gcSweepEntry env mark cutoff s n).1 =
        sweepOne (gcGone env mark cutoff) s.1 n := by
      rw [gcSweepEntry, sweepOne]
      rcases s.1 n with _ | f
      · rfl
      · dsimp only
        split <;> rfl
    rw [foldl_cons, ih, hone, foldl_cons]

theorem gcSweep_files (mark : List CvmfsKey) (cutoff : ℤ) (k : CvmfsKey) :
    (gcSweep env mark cutoff files).1 (casName k) =
      if (casName k).2 ∈ env.readdir (casName k).1 then
        (files (casName k)).filter fun f => !gcGone env mark cutoff (casName k) f
      else files (casName k) := by
  have hmem : casName k ∈ casDirs.flatMap (fun dir2 =>
      (env.readdir dir2).map fun name => (dir2, name)) ↔
        (casName k).2 ∈ env.readdir (casName k).1 := by
    constructor
    · intro h
      obtain ⟨dir2, -, h⟩ := mem_flatMap.mp h
      obtain ⟨name, hname, heq⟩ := mem_map.mp h
      rw [← heq]
      exact hname
    · intro h
      exact mem_flatMap.mpr ⟨_, mem_casDirs k.1, mem_map.mpr ⟨_, h, rfl⟩⟩
  rw [gcSweep, ← foldl_flatMap, foldl_gcSweepEntry, foldl_sweepOne]
  by_cases h : (casName k).2 ∈ env.readdir (casName k).1
  · rw [if_pos h, if_pos (hmem.mpr h)]
  · rw [if_neg h, if_neg (fun h' => h (hmem.mp h'))]

/-! ### What a run keeps -/

/-- **The roots to keep**: the manifest's, and of those the reflog lists the newest, the recent
and the tagged ones. -/
inductive GcKept (env : GcEnv) (o : GcOpts) (repo : CvmfsRepo) : CvmfsHash → Prop where
  | root : GcKept env o repo repo.manifest.rootCatalog
  | newest {j : ℕ} {r : GcRef} (hr : (gcCatalogs repo.reflog)[j]? = some r) (hj : j < o.keepN) :
      GcKept env o repo r.hash
  | recent {r : GcRef} (hr : r ∈ gcCatalogs repo.reflog) (hpos : 0 < o.keepSince)
      (hts : o.keepSince ≤ r.timestamp) : GcKept env o repo r.hash
  | tagged {r : GcRef} {pins : List CvmfsHash} (hr : r ∈ gcCatalogs repo.reflog)
      (hpins : gcLoadPins env repo = .ok pins) (hmem : r.hash ∈ pins) : GcKept env o repo r.hash

/-- What a run that succeeds owes: every stored object that a kept root reaches is still there,
the reflog lists kept roots only, and the certificate and the history of the manifest are
there. -/
structure GcKeeps (env : GcEnv) (o : GcOpts) (repo repo' : CvmfsRepo) : Prop where
  reachable : ∀ h k, GcKept env o repo h → CatalogReach env repo.files h k →
    ∀ f, repo.files (casName k) = some f → repo'.files (casName k) = some f
  listed : ∀ r ∈ gcCatalogs repo'.reflog, GcKept env o repo r.hash
  manifest : ∀ k ∈ gcManifestKeys repo'.manifest,
    ∀ f, repo.files (casName k) = some f → repo'.files (casName k) = some f

/-- An object that the sweep comes to, old enough, and can unlink. -/
def GcSweepable (env : GcEnv) (o : GcOpts) (repo : CvmfsRepo) (k : CvmfsKey) : Prop :=
  ∃ f, repo.files (casName k) = some f ∧ (casName k).2 ∈ env.readdir (casName k).1 ∧
    f.mtime ≤ gcCutoff env o ∧ env.unlinks (casName k) = true

/-- A run keeps the key. -/
def GcMarked (env : GcEnv) (o : GcOpts) (repo : CvmfsRepo) (k : CvmfsKey) : Prop :=
  (∃ r ∈ gcCatalogs repo.reflog, GcKept env o repo r.hash ∧
    CatalogReach env repo.files r.hash k) ∨
  k ∈ gcDirect repo.reflog ∨ k ∈ gcManifestKeys repo.manifest

/-- **When a run keeps what it owes**: what the root of the manifest reaches is marked for other
reasons than being kept, as it is when the reflog lists the root, or cannot be swept; and the
hashes the reflog is pruned by are SHA-1. -/
structure GcSafe (env : GcEnv) (o : GcOpts) (repo : CvmfsRepo) : Prop where
  root : ∀ k, CatalogReach env repo.files repo.manifest.rootCatalog k →
    GcSweepable env o repo k → GcMarked env o repo k
  plain : ∀ r ∈ gcCatalogs repo.reflog, ¬ GcKept env o repo r.hash → r.hash.algo = .sha1
  plainRoot : GcKept env o repo ⟨.sha1, repo.manifest.rootCatalog.digest⟩

theorem gcMarked_of_listed {r : GcRef} (hr : r ∈ gcCatalogs repo.reflog)
    (hroot : r.hash = repo.manifest.rootCatalog) {k : CvmfsKey}
    (hk : CatalogReach env repo.files repo.manifest.rootCatalog k) : GcMarked env o repo k :=
  .inl ⟨r, hr, hroot ▸ .root, hroot ▸ hk⟩

/-- The revisions that a run keeps, by the options -/
theorem gcKept_iff {pins : List CvmfsHash} (hpins : gcLoadPins env repo = .ok pins) :
    (∃ j r, (gcCatalogs repo.reflog)[j]? = some r ∧
        gcKeep o repo.manifest pins r j = true ∧ r.hash = h) ↔
      GcKept env o repo h ∧ ∃ r ∈ gcCatalogs repo.reflog, r.hash = h := by
  constructor
  · rintro ⟨j, r, hr, hkeep, rfl⟩
    have hmem := mem_of_getElem? hr
    refine ⟨?_, r, hmem, rfl⟩
    simp only [gcKeep, Bool.or_eq_true, Bool.and_eq_true, decide_eq_true_eq,
      contains_iff_mem] at hkeep
    rcases hkeep with ((hroot | ⟨-, hj⟩) | ⟨hpos, hts⟩) | hpin
    · exact hroot ▸ .root
    · exact .newest hr hj
    · exact .recent hmem hpos hts
    · exact .tagged hmem hpins hpin
  · rintro ⟨hkept, hlisted⟩
    cases hkept with
    | root =>
      obtain ⟨r, hr, hroot⟩ := hlisted
      obtain ⟨j, hj⟩ := mem_iff_getElem?.mp hr
      exact ⟨j, r, hj, by simp [gcKeep, hroot], hroot⟩
    | @newest j r hr hj =>
      have hpos : 0 < o.keepN := by omega
      exact ⟨j, r, hr, by simp [gcKeep, hpos, hj], rfl⟩
    | @recent r hr hpos hts =>
      obtain ⟨j, hj⟩ := mem_iff_getElem?.mp hr
      exact ⟨j, r, hj, by simp [gcKeep, hpos, hts], rfl⟩
    | @tagged r pins' hr hpins' hmem =>
      obtain rfl := Except.ok.inj (hpins.symm.trans hpins')
      obtain ⟨j, hj⟩ := mem_iff_getElem?.mp hr
      exact ⟨j, r, hj, by simp [gcKeep, hmem], rfl⟩

/-- What a run that succeeds has marked and dropped -/
theorem cvmfsGcRun_eq_ok {st : GcStats} (h : cvmfsGcRun env o repo = .ok (st, repo')) :
    ∃ (mark : List CvmfsKey) (drop : List GcRef), (∀ k, k ∈ mark ↔ GcMarked env o repo k) ∧
      (∀ r ∈ gcCatalogs repo.reflog, ¬ GcKept env o repo r.hash → r ∈ drop) ∧
      repo'.reflog = cvmfsReflogAdd (drop.foldl (fun rows r => cvmfsReflogDel rows r.hash)
        repo.reflog) repo.manifest.rootCatalog env.signTime ∧
      gcManifestKeys repo'.manifest = gcManifestKeys repo.manifest ∧
      repo'.files = (gcSweep env mark (gcCutoff env o) repo.files).1 := by
  rw [cvmfsGcRun] at h
  split at h
  · cases h
  split at h
  · cases h
  split at h
  · cases h
  obtain ⟨_, -, h⟩ := bind_eq_ok h
  obtain ⟨pins, hpins, h⟩ := bind_eq_ok h
  obtain ⟨⟨mark, drop, kept⟩, hmark, h⟩ := bind_eq_ok h
  obtain ⟨mid, hdrop, h⟩ := bind_eq_ok h
  dsimp only at h
  generalize hsweep : gcSweep env (mark ++ gcManifestKeys repo.manifest) (gcCutoff env o)
    mid.files = swept at h
  obtain ⟨files, n⟩ := swept
  injection h with h
  injection h with _ h
  subst h
  rw [gcDropRefs] at hdrop
  split at hdrop
  · injection hdrop with hdrop
    subst hdrop
    have hfiles : (gcSweep env (mark ++ gcManifestKeys repo.manifest) (gcCutoff env o)
        repo.files).1 = files := by
      rw [hsweep]
    obtain ⟨hadds, hdropped⟩ := gcMarkKept_spec hmark
    simp only [Nat.zero_add] at hadds hdropped
    refine ⟨mark ++ gcManifestKeys repo.manifest, drop, fun k => ?_, fun r hr hnot => ?_,
      rfl, rfl, hfiles.symm⟩
    · rw [mem_append, hadds k, GcMarked]
      constructor
      · rintro ((hdirect | ⟨j, r, hr, hkeep, hk⟩) | hman)
        · exact .inr (.inl hdirect)
        · obtain ⟨hkept, -⟩ := (gcKept_iff hpins).mp ⟨j, r, hr, hkeep, rfl⟩
          exact .inl ⟨r, mem_of_getElem? hr, hkept, hk⟩
        · exact .inr (.inr hman)
      · rintro (⟨r, hr, hkept, hk⟩ | hdirect | hman)
        · obtain ⟨j, r', hr', hkeep, heq⟩ := (gcKept_iff hpins).mpr ⟨hkept, r, hr, rfl⟩
          exact .inl (.inr ⟨j, r', hr', hkeep, heq ▸ hk⟩)
        · exact .inl (.inl hdirect)
        · exact .inr hman
    · obtain ⟨j, hj⟩ := mem_iff_getElem?.mp hr
      refine (hdropped r).mpr ⟨j, hj, ?_⟩
      rcases hkeep : gcKeep o repo.manifest pins r j with _ | _
      · rfl
      · exact absurd ((gcKept_iff hpins).mp ⟨j, r, hj, hkeep, rfl⟩).1 hnot
  · cases hdrop

/-! ### The reflog afterwards -/

theorem mem_gcCatalogs {rows : List ReflogRow} {r : GcRef} :
    r ∈ gcCatalogs rows ↔ ∃ row ∈ rows, row.type = reflogCatalog ∧
      CvmfsHash.parse row.hash = some r.hash ∧ row.timestamp = r.timestamp := by
  simp only [gcCatalogs, cvmfsReflogList, mem_filterMap, mem_insertionSort,
    Option.map_eq_some_iff, Option.ite_none_right_eq_some, Option.some.injEq]
  constructor
  · rintro ⟨_, ⟨row, hrow, h, hparse, rfl⟩, htype, rfl⟩
    exact ⟨row, hrow, htype, hparse, rfl⟩
  · rintro ⟨row, hrow, htype, hparse, hts⟩
    exact ⟨_, ⟨row, hrow, _, hparse, rfl⟩, htype, by rw [hts]⟩

theorem mem_foldl_del {drop : List GcRef} {rows : List ReflogRow} :
    row ∈ drop.foldl (fun rows r => cvmfsReflogDel rows r.hash) rows ↔
      row ∈ rows ∧ ∀ r ∈ drop, row.key ≠ (r.hash.digest.hex, reflogCatalog) := by
  induction drop generalizing rows with
  | nil => simp
  | cons r drop ih =>
    rw [foldl_cons, ih, cvmfsReflogDel, Keyed.mem_erase, forall_mem_cons, and_assoc]

theorem key_of_parse_sha1 (htype : row.type = reflogCatalog)
    (hparse : CvmfsHash.parse row.hash = some h) (halgo : h.algo = .sha1) :
    row.key = (h.digest.hex, reflogCatalog) := by
  obtain ⟨algo, d⟩ := h
  obtain rfl : algo = .sha1 := halgo
  rw [ReflogRow.key, CvmfsHash.parse_eq_sha1 hparse, htype]

theorem parse_of_key {d : CvmfsDigest} (hkey : row.key = (d.hex, reflogCatalog)) :
    CvmfsHash.parse row.hash = some ⟨.sha1, d⟩ := by
  obtain ⟨hhash, -⟩ := Prod.mk.inj hkey
  rw [hhash, CvmfsHash.parse_hex]

theorem gcSweep_stays (hmark : ∀ k, k ∈ mark ↔ GcMarked env o repo k)
    {k : CvmfsKey} {f : CasFile} (hf : repo.files (casName k) = some f) :
    (gcSweep env mark (gcCutoff env o) repo.files).1 (casName k) = some f ↔
      (GcSweepable env o repo k → GcMarked env o repo k) := by
  have hgone : gcGone env mark (gcCutoff env o) (casName k) f = true ↔
      k ∉ mark ∧ f.mtime ≤ gcCutoff env o ∧ env.unlinks (casName k) = true := by
    rw [gcGone, gcParseName_casName]
    simp [and_assoc]
  have hsweepable : GcSweepable env o repo k ↔ (casName k).2 ∈ env.readdir (casName k).1 ∧
      f.mtime ≤ gcCutoff env o ∧ env.unlinks (casName k) = true := by
    rw [GcSweepable, hf]
    simp
  rw [gcSweep_files, hf, hsweepable, ← hmark]
  by_cases hread : (casName k).2 ∈ env.readdir (casName k).1
  · rw [if_pos hread, Option.filter_eq_some_iff]
    simp only [Bool.not_eq_true', ← Bool.not_eq_true, hgone, true_and, hread]
    tauto
  · rw [if_neg hread]
    simp [hread]

/-- **A collection keeps what it owes**, exactly when it is safe. -/
theorem cvmfsGcRun_keeps_iff {st : GcStats} (h : cvmfsGcRun env o repo = .ok (st, repo')) :
    GcKeeps env o repo repo' ↔ GcSafe env o repo := by
  obtain ⟨mark, drop, hmark, hdropped, hreflog, hman, hfiles⟩ := cvmfsGcRun_eq_ok h
  -- the rows afterwards: the root, added again, and the rows that are not pruned
  have hrows : ∀ row, row ∈ repo'.reflog ↔
      row = ⟨repo.manifest.rootCatalog.digest.hex, reflogCatalog, env.signTime⟩ ∨
        (row ∈ repo.reflog ∧ ∀ r ∈ drop, row.key ≠ (r.hash.digest.hex, reflogCatalog)) ∧
          row.key ≠ (repo.manifest.rootCatalog.digest.hex, reflogCatalog) := by
    intro row
    rw [hreflog, cvmfsReflogAdd, Keyed.mem_replace, mem_foldl_del]
    rfl
  constructor
  · intro hkeeps
    refine ⟨fun k hk hsweep => ?_, fun r hr hnot => ?_, ?_⟩
    · obtain ⟨f, hf, -⟩ := id hsweep
      have hstays := hkeeps.reachable _ k .root hk f hf
      rw [hfiles] at hstays
      exact (gcSweep_stays hmark hf).mp hstays hsweep
    · -- a row that is not SHA-1 is never pruned
      by_contra halgo
      obtain ⟨row, hrow, htype, hparse, hts⟩ := mem_gcCatalogs.mp hr
      have hkey : ∀ d : CvmfsDigest, row.key ≠ (d.hex, reflogCatalog) := by
        intro d hkey
        have hash := Option.some.inj (hparse.symm.trans (parse_of_key hkey))
        exact halgo (by rw [hash])
      have hrow' := (hrows row).mpr (.inr ⟨⟨hrow, fun r' _ => hkey _⟩, hkey _⟩)
      exact hnot (hkeeps.listed r (mem_gcCatalogs.mpr ⟨row, hrow', htype, hparse, hts⟩))
    · exact hkeeps.listed ⟨⟨.sha1, repo.manifest.rootCatalog.digest⟩, env.signTime⟩
        (mem_gcCatalogs.mpr ⟨_, (hrows _).mpr (.inl rfl), rfl, CvmfsHash.parse_hex _, rfl⟩)
  · intro hsafe
    refine ⟨fun g k hkept hk f hf => ?_, fun r hr => ?_, fun k hk f hf => ?_⟩
    · rw [hfiles]
      refine (gcSweep_stays hmark hf).mpr fun hsweep => ?_
      rcases hkept with _ | ⟨hr, hj⟩ | ⟨hr, hpos, hts⟩ | ⟨hr, hpins, hmem⟩
      · exact hsafe.root k hk hsweep
      · exact .inl ⟨_, mem_of_getElem? hr, .newest hr hj, hk⟩
      · exact .inl ⟨_, hr, .recent hr hpos hts, hk⟩
      · exact .inl ⟨_, hr, .tagged hr hpins hmem, hk⟩
    · obtain ⟨row, hrow, htype, hparse, hts⟩ := mem_gcCatalogs.mp hr
      rcases (hrows row).mp hrow with rfl | ⟨⟨hrow, hleft⟩, -⟩
      · -- the row the root has afterwards
        have hroot := Option.some.inj ((CvmfsHash.parse_hex _).symm.trans hparse)
        rw [← hroot]
        exact hsafe.plainRoot
      · -- a row that is left was not dropped, as a dropped one is SHA-1 and pruned by its hash
        by_contra hnot
        have hold : r ∈ gcCatalogs repo.reflog := mem_gcCatalogs.mpr ⟨row, hrow, htype, hparse, hts⟩
        exact hleft r (hdropped r hold hnot)
          (key_of_parse_sha1 htype hparse (hsafe.plain r hold hnot))
    · rw [hman] at hk
      rw [hfiles]
      exact (gcSweep_stays hmark hf).mpr fun _ => .inr (.inr hk)

/-! ### Two runs -/

/-- Objects whose digest repeats their first byte, and catalogs without entries; every file is
read and can be unlinked. -/
def gcSampleEnv : GcEnv where
  sha1 bytes := .replicate (bytes.headD 0)
  catalogOf _ := some ⟨[], [], []⟩
  tagsOf _ := none
  locks := true
  verifies := true
  reflogSum := some ⟨.sha1, .replicate 9⟩
  newReflogSum := ⟨.sha1, .replicate 9⟩
  swaps := true
  signTime := 100
  sweepTime := 100
  readdir dir2 := ([1, 2].map fun b => casName (.replicate b, 67)).filterMap fun n =>
    if n.1 = dir2 then some n.2 else none
  unlinks _ := true

/-- Two root catalogs, of bytes 1 and 2, the second the manifest's. -/
def gcSampleRepo (reflog : List ReflogRow) : CvmfsRepo where
  manifest := ⟨⟨.sha1, .replicate 2⟩, 1, ⟨.sha1, .replicate 3⟩, none, some ⟨.sha1, .replicate 9⟩, 2⟩
  reflog := reflog
  files n :=
    if n = casName (.replicate 1, 67) then some ⟨[1], 0⟩
    else if n = casName (.replicate 2, 67) then some ⟨[2], 0⟩
    else none

def gcSampleRow (b : UInt8) (timestamp : ℤ) : ReflogRow :=
  ⟨(CvmfsDigest.replicate b).hex, reflogCatalog, timestamp⟩

theorem cvmfsGcRun_keeps_iff_sample : ∃ st repo',
    cvmfsGcRun gcSampleEnv ⟨1, 0, 0⟩ (gcSampleRepo [gcSampleRow 1 10, gcSampleRow 2 20]) =
      .ok (st, repo') ∧
    GcKeeps gcSampleEnv ⟨1, 0, 0⟩ (gcSampleRepo [gcSampleRow 1 10, gcSampleRow 2 20]) repo' := by
  have hok : (cvmfsGcRun gcSampleEnv ⟨1, 0, 0⟩
      (gcSampleRepo [gcSampleRow 1 10, gcSampleRow 2 20])).toBool = true := by
    decide +kernel
  rcases hrun : cvmfsGcRun gcSampleEnv ⟨1, 0, 0⟩
    (gcSampleRepo [gcSampleRow 1 10, gcSampleRow 2 20]) with _ | ⟨st, repo'⟩
  · rw [hrun] at hok
    cases hok
  have hlisted : (⟨⟨.sha1, .replicate 2⟩, 20⟩ : GcRef) ∈
      gcCatalogs [gcSampleRow 1 10, gcSampleRow 2 20] := by
    decide +kernel
  have hsha1 : ∀ r ∈ gcCatalogs [gcSampleRow 1 10, gcSampleRow 2 20], r.hash.algo = .sha1 := by
    decide +kernel
  refine ⟨st, repo', rfl, (cvmfsGcRun_keeps_iff hrun).mpr ⟨fun k hk _ => ?_, fun r hr _ => ?_,
    .root⟩⟩
  · exact gcMarked_of_listed hlisted rfl hk
  · exact hsha1 r hr

/-- A reflog that lists the other root only: the catalog of the manifest is unlinked. -/
theorem unlisted_root_is_swept : ∃ st repo',
    cvmfsGcRun gcSampleEnv ⟨1, 0, 0⟩ (gcSampleRepo [gcSampleRow 1 10]) = .ok (st, repo') ∧
    ¬ GcKeeps gcSampleEnv ⟨1, 0, 0⟩ (gcSampleRepo [gcSampleRow 1 10]) repo' := by
  have hgone : (cvmfsGcRun gcSampleEnv ⟨1, 0, 0⟩ (gcSampleRepo [gcSampleRow 1 10])).toOption.map
      (fun p => p.2.files (casName (.replicate 2, 67))) = some none := by
    decide +kernel
  rcases hrun : cvmfsGcRun gcSampleEnv ⟨1, 0, 0⟩ (gcSampleRepo [gcSampleRow 1 10])
    with _ | ⟨st, repo'⟩
  · rw [hrun] at hgone
    cases hgone
  rw [hrun] at hgone
  have hgone : repo'.files (casName (.replicate 2, 67)) = none := Option.some.inj hgone
  refine ⟨st, repo', rfl, fun hkeeps => ?_⟩
  have hstays := hkeeps.reachable _ _ .root (.self _) ⟨[2], 0⟩ (by decide +kernel)
  rw [show (casName ((gcSampleRepo [gcSampleRow 1 10]).manifest.rootCatalog.digest, 67)) =
    casName (.replicate 2, 67) from rfl, hgone] at hstays
  cases hstays

end BrixCache
