import BrixCache.Cvmfs.Hash
import BrixCache.Lib.TriangularProbe
import BrixCache.Core.Json
import BrixCache.Lib.Posix
import BrixCache.Oci.Names

/-!
# The set of digests

`brix_oci_gc_set_t` of `shared/oci/gc.c`: the digits of digests in an open table that is at most
half full, doubled as it fills. A set carries what its table owes, so every set is one.
-/

namespace BrixCache

namespace Oci

open TriangularProbe

/-- The bucket of `gc_slot`: the last eight digits as a number. The counters of the code wrap at a
multiple of the size of the table. -/
def gcBucket (hex : Bytes) : ℕ :=
  (hex.drop (hex.length - 8)).foldl (fun n c => n * 16 + (CvmfsHash.hexval c).getD 0) 0

/-- What a table with `n` keys owes: none before the first key, then of an even power of two
slots, half of them free, each key where its search ends. -/
def GcTable (slots : List (Option Bytes)) (n : ℕ) : Prop :=
  (slots = [] ∧ n = 0) ∨ ∃ e, slots.length = 2 ^ (e + 1) ∧ 2 * n ≤ slots.length ∧
    taken slots ≤ n ∧ Reached gcBucket slots

/-- A set of digests as an open table -/
structure GcSet : Type where
  slots : List (Option Bytes)
  n : ℕ
  table : GcTable slots n

namespace GcSet

instance : Membership Bytes GcSet := ⟨fun s hex => some hex ∈ s.slots⟩

variable {hex : Bytes} {s : GcSet}

theorem mem_def : hex ∈ s ↔ some hex ∈ s.slots := Iff.rfl

/-- The set before the first key. -/
def empty : GcSet := ⟨[], 0, .inl ⟨rfl, rfl⟩⟩

theorem notMem_empty (hex : Bytes) : hex ∉ empty := nofun

/-- How large a table grows, `GC_CAP0` at first. -/
def grownCap (cap : ℕ) : ℕ := if cap = 0 then 1024 else cap * 2

theorem grow_table (s : GcSet) : ∃ e, grownCap s.slots.length = 2 ^ (e + 1) ∧
    2 * (s.n + 1) ≤ grownCap s.slots.length ∧ taken s.slots ≤ s.n ∧
      taken s.slots < grownCap s.slots.length := by
  obtain ⟨slots, n, ⟨rfl, rfl⟩ | ⟨e, hlen, hhalf, htaken, -⟩⟩ := s
  · exact ⟨9, rfl, by decide, Nat.le_refl _, by decide⟩
  · have hpos : 0 < 2 ^ e := Nat.two_pow_pos e
    have hpow : 2 ^ (e + 1) = 2 * 2 ^ e := Nat.pow_succ'
    have hcap : grownCap slots.length = slots.length * 2 := if_neg (by omega)
    refine ⟨e + 1, ?_, ?_, htaken, ?_⟩
    · dsimp only
      rw [hcap, hlen, Nat.pow_succ 2 (e + 1)]
    · dsimp only
      omega
    · dsimp only
      omega

/-- `gc_set_grow` -/
def grow (s : GcSet) : GcSet where
  slots := rehash gcBucket (grownCap s.slots.length) s.slots
  n := s.n
  table := by
    obtain ⟨e, hcap, hhalf, htaken, hfits⟩ := grow_table s
    obtain ⟨hlen, hr, -, hle⟩ := rehash_spec hcap hfits
    exact .inr ⟨e, by rw [hlen, hcap], by omega, by omega, hr⟩

theorem mem_grow : hex ∈ s.grow ↔ hex ∈ s := by
  obtain ⟨e, hcap, hhalf, htaken, hfits⟩ := grow_table s
  obtain ⟨-, -, hmem, -⟩ := rehash_spec hcap hfits
  exact hmem hex

theorem grow_room (s : GcSet) : 2 * s.grow.n < s.grow.slots.length := by
  obtain ⟨e, hcap, hhalf, htaken, hfits⟩ := grow_table s
  obtain ⟨hlen, -⟩ := rehash_spec hcap hfits
  have hlen' : s.grow.slots.length = grownCap s.slots.length := hlen
  have hn : s.grow.n = s.n := rfl
  omega

theorem table_of_room (hroom : 2 * s.n < s.slots.length) :
    ∃ e, s.slots.length = 2 ^ (e + 1) ∧ taken s.slots ≤ s.n ∧ Reached gcBucket s.slots := by
  obtain ⟨slots, n, ⟨rfl, rfl⟩ | ⟨e, hlen, -, htaken, hr⟩⟩ := s
  · cases hroom
  · exact ⟨e, hlen, htaken, hr⟩

theorem put_table (hroom : 2 * s.n < s.slots.length) (hex : Bytes) :
    GcTable (put gcBucket s.slots hex) (s.n + 1) := by
  obtain ⟨e, hlen, htaken, hr⟩ := table_of_room hroom
  obtain ⟨hr', -, hle⟩ := put_spec hlen hr (by omega) hex
  have hlen' := length_put gcBucket s.slots hex
  have hpow : 2 ^ (e + 1) = 2 * 2 ^ e := Nat.pow_succ'
  exact .inr ⟨e, by omega, by omega, by omega, hr'⟩

/-- A key comes into its slot, `gc_slot` in a set with room: the set, and was it inserted? -/
def insert (s : GcSet) (hroom : 2 * s.n < s.slots.length) (hex : Bytes) : GcSet × Bool :=
  match slot gcBucket s.slots hex with
  | none => (s, false)
  | some i =>
    if s.slots.getD i none ≠ none then (s, false)
    else
      (⟨put gcBucket s.slots hex, s.n + 1, put_table hroom hex⟩, true)

theorem mem_insert {hroom : 2 * s.n < s.slots.length} {x : Bytes} :
    x ∈ (s.insert hroom hex).1 ↔ x = hex ∨ x ∈ s := by
  obtain ⟨e, hlen, htaken, hr⟩ := table_of_room hroom
  have hfree : taken s.slots < s.slots.length := by omega
  obtain ⟨z, hz, hzfree⟩ := exists_free hfree
  obtain ⟨j, -, hslot, -⟩ := exists_slot hlen hz hzfree hex
  rw [insert, hslot]
  dsimp only
  by_cases hheld : s.slots.getD (probe gcBucket s.slots hex j) none ≠ none
  · -- the slot is taken, so by the key
    have hmem : hex ∈ s := (mem_iff_slot hlen hr hfree).mpr ⟨_, hslot, hheld⟩
    rw [if_pos hheld]
    constructor
    · exact .inr
    · rintro (rfl | hx)
      · exact hmem
      · exact hx
  · rw [if_neg hheld]
    exact (put_spec hlen hr hfree hex).2.1 x

end GcSet

/-- `brix_oci_gc_set_add`, with the sizes of tables there is memory for: `none` is `-1`, else was
the key inserted? -/
def gcSetAdd (calloc : ℕ → Bool) (s : GcSet) (hex : Bytes) : Option (GcSet × Bool) :=
  if hroom : 2 * s.n < s.slots.length then some (s.insert hroom hex)
  else if calloc (GcSet.grownCap s.slots.length) then some (s.grow.insert s.grow_room hex)
  else none

/-- The digest is in the set. -/
def gcSetHas (s : GcSet) (hex : Bytes) : Bool :=
  if s.slots.length = 0 then false
  else
    match slot gcBucket s.slots hex with
    | none => false
    | some i => s.slots.getD i none ≠ none

def gcSetOf (calloc : ℕ → Bool) (hexes : List Bytes) : Option GcSet :=
  hexes.foldlM (fun s hex => (gcSetAdd calloc s hex).map Prod.fst) .empty

variable {calloc : ℕ → Bool} {s s' : GcSet} {hex x : Bytes} {fresh : Bool}

theorem mem_gcSetAdd (h : gcSetAdd calloc s hex = some (s', fresh)) :
    x ∈ s' ↔ x = hex ∨ x ∈ s := by
  rw [gcSetAdd] at h
  split at h
  · rename_i hroom
    have hs' : (s.insert hroom hex).1 = s' := congrArg Prod.fst (Option.some.inj h)
    rw [← hs', GcSet.mem_insert]
  · split at h
    · have hs' : (s.grow.insert s.grow_room hex).1 = s' := congrArg Prod.fst (Option.some.inj h)
      rw [← hs', GcSet.mem_insert, GcSet.mem_grow]
    · cases h

theorem gcSetHas_iff : gcSetHas s hex = true ↔ hex ∈ s := by
  obtain ⟨slots, n, ⟨rfl, rfl⟩ | ⟨e, hlen, hhalf, htaken, hr⟩⟩ := s
  · simp [gcSetHas, GcSet.mem_def]
  · have hpos : 0 < 2 ^ e := Nat.two_pow_pos e
    have hpow : 2 ^ (e + 1) = 2 * 2 ^ e := Nat.pow_succ'
    have hne : ¬ slots.length = 0 := by omega
    have hfree : taken slots < slots.length := by omega
    rw [gcSetHas, if_neg hne, GcSet.mem_def, mem_iff_slot hlen hr hfree]
    rcases slot gcBucket slots hex with _ | i <;> simp

theorem gcSetHas_gcSetOf {hexes : List Bytes} (h : gcSetOf calloc hexes = some s) :
    gcSetHas s x = true ↔ x ∈ hexes := by
  have hfold : ∀ {s₀ s₁ : GcSet}, hexes.foldlM (fun s hex => (gcSetAdd calloc s hex).map Prod.fst)
      s₀ = some s₁ → (x ∈ s₁ ↔ x ∈ hexes ∨ x ∈ s₀) := by
    clear h
    induction hexes with
    | nil =>
      intro s₀ s₁ h
      cases h
      simp
    | cons hex hexes ih =>
      intro s₀ s₁ h
      rw [List.foldlM_cons] at h
      rcases hadd : gcSetAdd calloc s₀ hex with _ | ⟨s₂, fresh⟩
      · rw [hadd] at h
        cases h
      · rw [hadd] at h
        rw [ih h, mem_gcSetAdd hadd, List.mem_cons]
        tauto
  rw [gcSetHas_iff, hfold h]
  exact or_iff_left (GcSet.notMem_empty x)

end Oci

end BrixCache

/-!
## Garbage collection of a registry

`shared/oci/gc.c`, `gc_mark.c` and `gc_sweep.c`. A path is given by its components below the root;
where the code writes it into a buffer, its length is that of the string. The counters of the
report and the `rmdir` of an empty directory are left out.
-/

namespace BrixCache

namespace Oci

abbrev Path : Type := List Bytes

/-- What is at a path of the store -/
inductive Node : Type where
  /-- the entries in the order of `readdir`, without the two dots -/
  | dir (entries : List Bytes) : Node
  | file (bytes : Bytes) (mtime : ℤ) : Node
  | other : Node
  deriving DecidableEq

/-- How the calls go, one answer for a path. -/
structure GcCalls : Type where
  /-- does `lstat` succeed, where there is something? -/
  lstat : Path → Bool
  /-- why `opendir` fails -/
  opendir : Path → Option Errno
  /-- how many entries `readdir` gives before it ends or fails -/
  readdir : Path → ℕ
  fopen : Path → Bool
  malloc : Path → Bool
  /-- how many bytes `fread` gives -/
  fread : Path → ℕ
  /-- is there memory for a table of so many slots? -/
  calloc : ℕ → Bool
  unlink : Path → Bool
  time : ℤ

/-- `brix_oci_gc_t`, with the store it is run on. -/
structure Gc : Type where
  root : Bytes
  grace : ℤ
  dryRun : Bool
  store : Path → Option Node
  calls : GcCalls

/-- What ends a run. -/
inductive GcError : Type where
  /-- "not an OCI registry store" -/
  | root : GcError
  /-- "repository path too long", "store path too long" -/
  | tooLong (p : Path) : GcError
  /-- "…: …", a directory and why it cannot be opened -/
  | opendir (p : Path) (e : Errno) : GcError
  /-- "out of memory marking …" -/
  | noMemory (p : Path) : GcError

/-- What a run has done so far: the live set, and the paths it unlinked. -/
structure GcPass : Type where
  live : GcSet
  gone : List Path

/-! ### Paths -/

def blobs : Bytes := ascii "blobs"

def repos : Bytes := ascii "repos"

def manifests : Bytes := ascii "manifests"

def layers : Bytes := ascii "layers"

def referrers : Bytes := ascii "referrers"

/-- `oci_store` keeps a blob here. -/
def blobPath (d : Digest) : Path := [blobs, d.alg.name, d.hex.take 2, d.hex]

def manifestDir (rel : Path) (a : Alg) : Path := repos :: rel ++ [manifests, a.name]

def manifestPath (rel : Path) (d : Digest) : Path := manifestDir rel d.alg ++ [d.hex]

def pathLength (root : Bytes) (p : Path) : ℕ :=
  root.length + (p.map fun name => name.length + 1).sum

/-- `brix_oci_gc_fmt` into a buffer of `PATH_MAX` bytes, where the string has `more` slashes than
the path needs: does it fit? -/
def gcFmt (c : Gc) (p : Path) (more : ℕ) : Bool := pathLength c.root p + more < 4096

def gcIsHex (name : Bytes) : Bool := (digestParseHex name).isSome

/-! ### Calls -/

def gcIsdir (c : Gc) (p : Path) : Bool :=
  c.calls.lstat p &&
    match c.store p with
    | some (.dir _) => true
    | _ => false

/-- `opendir` and the loop over `readdir`. -/
def gcEntries (c : Gc) (p : Path) : Except Errno (List Bytes) :=
  match c.calls.opendir p with
  | some e => .error e
  | none =>
    match c.store p with
    | none => .error .enoent
    | some (.dir entries) => .ok (entries.take (c.calls.readdir p))
    | some _ => .error .enotdir

/-- A regular file older than the grace time. -/
def gcReapable (c : Gc) (p : Path) : Bool :=
  c.calls.lstat p &&
    match c.store p with
    | some (.file _ mtime) => !decide (c.calls.time < mtime + c.grace)
    | _ => false

/-- `brix_oci_gc_reap`: what it unlinks. -/
def gcReap (c : Gc) (p : Path) : List Path := if !c.dryRun && c.calls.unlink p then [p] else []

/-- `BRIX_OCI_GC_MANIFEST_MAX` -/
def gcManifestMax : ℕ := 4 * 1024 * 1024

def gcSlurp (c : Gc) (p : Path) : Option Bytes :=
  if c.calls.lstat p then
    match c.store p with
    | some (.file bytes _) =>
      if gcManifestMax < bytes.length then none
      else if !c.calls.fopen p then none
      else if !c.calls.malloc p then none
      else some (bytes.take (c.calls.fread p))
    | _ => none
  else none

/-! ### Marking -/

/-- The digests that are kept, of the store and of a repository -/
structure GcSets : Type where
  live : GcSet
  repo : GcSet

/-- `brix_oci_gc_set_add(…) < 0` -/
def gcAdd (c : Gc) (s : GcSet) (hex : Bytes) : Except Unit GcSet :=
  match gcSetAdd c.calls.calloc s hex with
  | none => .error ()
  | some (s, _) => .ok s

/-- `BRIX_OCI_DIGEST_STRLEN` -/
def digestStrlen : ℕ := 136

/-- The digest of a descriptor, as `gc_mark` reads it. -/
def gcDigestOf (el : Bytes) : Option Digest :=
  (Json.getStr el (ascii "digest") digestStrlen).bind fun s => digestParse (s.takeWhile (· ≠ 0))

/-- Mark one descriptor's digest. -/
def gcMark (c : Gc) (sets : GcSets) (el : Bytes) : Except Unit GcSets :=
  match gcDigestOf el with
  | none => .ok sets
  | some d => do
    let live ← gcAdd c sets.live d.hex
    let repo ← gcAdd c sets.repo d.hex
    .ok ⟨live, repo⟩

/-- A turn of `gc_mark_body`. -/
def gcMarkObject (c : Gc) (body : Bytes) (sets : GcSets) (key : Bytes) :
    Except Unit GcSets :=
  match Json.getRaw body key with
  | .found el => gcMark c sets el
  | _ => .ok sets

def gcMarkArray (c : Gc) (body : Bytes) (sets : GcSets) (key : Bytes) :
    Except Unit GcSets :=
  match Json.getRaw body key with
  | .found arr => (Json.arrElems arr).1.foldlM (gcMark c) sets
  | _ => .ok sets

/-- The members of a manifest that are descriptors, and those that are arrays of them. -/
def objectKeys : List Bytes := [ascii "config", ascii "subject"]

def arrayKeys : List Bytes := [ascii "layers", ascii "manifests"]

/-- Mark what a manifest refers to. -/
def gcMarkBody (c : Gc) (sets : GcSets) (body : Bytes) : Except Unit GcSets := do
  let sets ← objectKeys.foldlM (gcMarkObject c body) sets
  arrayKeys.foldlM (gcMarkArray c body) sets

/-- A turn of `gc_repo_manifests`. -/
def gcManifest (c : Gc) (dir : Path) (sets : GcSets) (name : Bytes) : Except Unit GcSets :=
  if gcIsHex name && gcFmt c (dir ++ [name]) 0 then
    match gcSlurp c (dir ++ [name]) with
    | none => .ok sets
    | some body => do
      let live ← gcAdd c sets.live name
      gcMarkBody c { sets with live := live } body
  else .ok sets

/-- Mark the manifests of one repository. -/
def gcRepoManifests (c : Gc) (dir : Path) (sets : GcSets) : Except GcError GcSets :=
  match gcEntries c dir with
  | .error .enoent => .ok sets
  | .error e => .error (.opendir dir e)
  | .ok names =>
    match names.foldlM (gcManifest c dir) sets with
    | .error _ => .error (.noMemory dir)
    | .ok sets => .ok sets

/-! ### A repository -/

/-- The loop of `readdir` of a directory that may be missing. -/
def gcOver (c : Gc) (dir : Path) (f : Bytes → List Path) : List Path :=
  match gcEntries c dir with
  | .error _ => []
  | .ok names => names.flatMap f

def gcRepoMarks (c : Gc) (repo : GcSet) (dir : Path) : List Path :=
  gcOver c dir fun name =>
    if gcIsHex name && !gcSetHas repo name && gcFmt c (dir ++ [name]) 0 &&
        gcReapable c (dir ++ [name]) then
      gcReap c (dir ++ [name])
    else []

/-- `gc_referrer_dir`, below the directory of a repository. -/
def gcReferrerDir (c : Gc) (repoDir : Path) (alg : Alg) (subj : Bytes) : List Path :=
  let dir := repoDir ++ [referrers, alg.name, subj]
  if !gcFmt c dir 0 then []
  else
    gcOver c dir fun name =>
      match digestParseHex name with
      | none => []
      | some d =>
        let man := repoDir ++ [manifests, d.alg.name, name]
        if gcFmt c (dir ++ [name]) 0 && gcFmt c man 0 &&
            !(c.calls.lstat man && (c.store man).isSome) && gcReapable c (dir ++ [name]) then
          gcReap c (dir ++ [name])
        else []

def gcRepoReferrersAlg (c : Gc) (repoDir : Path) (alg : Alg) : List Path :=
  if !gcFmt c (repoDir ++ [referrers, alg.name]) 0 then []
  else
    gcOver c (repoDir ++ [referrers, alg.name]) fun subj =>
      if gcIsHex subj then gcReferrerDir c repoDir alg subj else []

def gcRepoReferrers (c : Gc) (repoDir : Path) : List Path :=
  Alg.all.flatMap (gcRepoReferrersAlg c repoDir)

/-- A turn of the loop of `brix_oci_gc_repo`. -/
def gcRepoAlg (c : Gc) (rel : Path) (sets : GcSets) (a : Alg) : Except GcError GcSets :=
  if !gcFmt c (manifestDir rel a) 0 then .error (.tooLong rel)
  else gcRepoManifests c (manifestDir rel a) sets

/-- Mark one repository and sweep its marks. -/
def gcRepo (c : Gc) (rel : Path) (pass : GcPass) : Except GcError GcPass :=
  if !gcFmt c (repos :: rel) 0 then .error (.tooLong rel)
  else do
    let sets ← Alg.all.foldlM (gcRepoAlg c rel) ⟨pass.live, .empty⟩
    let marks :=
      if gcFmt c (repos :: rel ++ [layers]) 0 then
        gcRepoMarks c sets.repo (repos :: rel ++ [layers])
      else []
    .ok ⟨sets.live, pass.gone ++ marks ++ gcRepoReferrers c (repos :: rel)⟩

/-! ### The walk -/

def gcHasManifests (c : Gc) (rel : Path) : Bool :=
  Alg.all.any fun a => gcFmt c (manifestDir rel a) 0 && gcIsdir c (manifestDir rel a)

/-- How many slashes the string of `repos/` has more than its path. -/
def gcMore (rel : Path) : ℕ := if rel = [] then 1 else 0

/-- Does `gc_walk` go into an entry? -/
def gcDown (c : Gc) (rel : Path) (name : Bytes) : Bool :=
  name.head? ≠ some 46 && nameLength (rel ++ [name]) < 512 &&
    gcFmt c (repos :: rel ++ [name]) (gcMore rel) && gcIsdir c (repos :: rel ++ [name])

/-- What `gc_walk` does at a directory. -/
def gcHere (c : Gc) (rel : Path) (pass : GcPass) : Except GcError GcPass :=
  if rel ≠ [] && gcHasManifests c rel then gcRepo c rel pass else .ok pass

/-- `gc_walk`, with the levels that are left. -/
def gcWalk (c : Gc) : ℕ → Path → GcPass → Except GcError GcPass
  | 0, _, pass => .ok pass
  | levels + 1, rel, pass =>
    if !gcFmt c (repos :: rel) (gcMore rel) then .ok pass
    else do
      let pass ← gcHere c rel pass
      match gcEntries c (repos :: rel) with
      | .error _ => .ok pass
      | .ok names =>
        names.foldlM (fun pass name =>
          if gcDown c rel name then gcWalk c levels (rel ++ [name]) pass else .ok pass) pass

/-- The root is at depth 0, and `BRIX_OCI_GC_DEPTH_MAX`, 12, is the last that is walked. -/
def gcLevels : ℕ := 13

/-! ### The sweep -/

def gcBlobFanout (c : Gc) (live : GcSet) (dir : Path) : List Path :=
  gcOver c dir fun name =>
    if gcIsHex name && gcFmt c (dir ++ [name]) 0 && !gcSetHas live name &&
        gcReapable c (dir ++ [name]) then
      gcReap c (dir ++ [name])
    else []

def gcSweepBlobsAlg (c : Gc) (live : GcSet) (a : Alg) : Except GcError (List Path) :=
  if !gcFmt c [blobs, a.name] 0 then .error (.tooLong [blobs, a.name])
  else
    match gcEntries c [blobs, a.name] with
    | .error .enoent => .ok []
    | .error e => .error (.opendir [blobs, a.name] e)
    | .ok names =>
      .ok (names.flatMap fun name =>
        if name.head? ≠ some 46 && gcFmt c [blobs, a.name, name] 0 &&
            gcIsdir c [blobs, a.name, name] then
          gcBlobFanout c live [blobs, a.name, name]
        else [])

/-- Sweep the blobs nothing refers to. -/
def gcSweepBlobs (c : Gc) (live : GcSet) : Except GcError (List Path) :=
  Alg.all.foldlM (fun gone a => (gcSweepBlobsAlg c live a).map (gone ++ ·)) []

def gcRootOk (c : Gc) : Bool :=
  gcFmt c [blobs] 0 && gcIsdir c [blobs] && gcFmt c [repos] 0 && gcIsdir c [repos]

/-- `brix_oci_gc_run`: the paths it unlinked. -/
def gcRun (c : Gc) : Except GcError (List Path) :=
  if !gcRootOk c then .error .root
  else do
    let pass ← gcWalk c gcLevels [] ⟨.empty, []⟩
    let swept ← gcSweepBlobs c pass.live
    .ok (pass.gone ++ swept)

end Oci

end BrixCache
