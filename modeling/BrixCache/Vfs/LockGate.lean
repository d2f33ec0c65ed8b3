import BrixCache.Core.LockRecord

/-!
# The lock gates

Before a mutation a path and its ancestors up to the export root are looked through for a live
lock of somebody else: at the storage layer (`vfs_lock_gate.c`, one path or a list of them) and
at the WebDAV edge (`lock_check.c`, which also clears away what has expired).
-/

namespace BrixCache

open Words

/-! ## Paths of an export -/

def PATH_MAX : ℕ := 4096

/-- The root of an export, `root_canon`: the names on the way to it -/
structure ExportRoot : Type where
  names : List Bytes
  proper : ∀ n ∈ names, slash ∉ n ∧ n ≠ []

/-- Only the root directory ends in a slash. -/
def ExportRoot.canon (root : ExportRoot) : Bytes :=
  if root.names = [] then [slash] else root.names.flatMap (slash :: ·)

/-- `brix_beneath_full_path`, when the buffer has room -/
def brixBeneathFullPath (rootCanon reqpath : Bytes) (bufsz : ℕ) : Option Bytes :=
  let rel := reqpath.dropWhile (· = slash)
  let full :=
    if rel = [] then rootCanon
    else if rootCanon = [slash] then rootCanon ++ rel
    else rootCanon ++ slash :: rel
  if full.length < bufsz then some full else none

/-- A target a request can name -/
structure ConfinedPath (root : ExportRoot) : Type where
  reqpath : Bytes
  path : Bytes
  joined : brixBeneathFullPath root.canon reqpath PATH_MAX = some path

/-! ## The storage and the request -/

/-- What a path names: its words. A path below a file or a name that is not there has no record. -/
abbrev Resource : Type := List Bytes

/-- The lock attributes. A record is written from a buffer of the size reads have. -/
structure LockDb : Type where
  value : Resource → Option Bytes
  fits : ∀ p raw, value p = some raw → raw.length < BRIX_LOCK_XATTR_MAXLEN

/-- What reading a lock attribute gives: none there, a failed read, or the bytes -/
inductive XattrRead : Type where
  | absent | fault
  | value (raw : Bytes)
  deriving DecidableEq

/-- What a request is decided with. `ngx_time` is the clock, `lockToken` the header the client
presents, and `isLink` says of a path that a symbolic link is its last component. -/
structure LockCtx : Type where
  root : ExportRoot
  ngxTime : ℤ
  lockToken : Option Bytes
  isLink : Bytes → Bool

/-- `strstr` of the token in the header -/
def LockCtx.presents (c : LockCtx) (token : Bytes) : Bool :=
  match c.lockToken with
  | some header => decide (token <:+: header)
  | none => false

/-- `brix_vfs_mutation_op_t` -/
inductive MutationOp : Type where
  | mutateOpen | mutateWrite | mutateTruncate | mutateSync | mutateMkdir | mutateRemove
  | mutateRename | mutateCopy | mutateSetattr | mutateXattr | mutatePublish | mutateStage
  | mutateEvict | mutateLock | mutateDedup | mutateCredential
  deriving DecidableEq

/-- `brix_vfs_lock_enforcement_t` -/
inductive LockMode : Type where
  | strict | advisory | off
  deriving DecidableEq

/-- `NGX_OK`, `NGX_ERROR` with `EBUSY`, `NGX_ERROR` with the errno of a read -/
inductive GateResult : Type where
  | ok | busy | fault
  deriving DecidableEq

/-! ## The levels of a walk -/

/-- The end of the loop of both walks: where it goes on, if it does -/
def lockNext (rootLen : ℕ) (check : Bytes) : Option Bytes :=
  if check.length ≤ rootLen then none
  else
    match brixLockPathAscend check with
    | none => none
    | some up => if up.length < rootLen then none else some up

/-- The levels a walk looks at from `check` on. Each is shorter than the one before, so there
are at most as many as the path has bytes, and one. -/
def lockLevelsFrom (rootLen : ℕ) : ℕ → Bytes → List Bytes
  | 0, _ => []
  | fuel + 1, check =>
    check :: match lockNext rootLen check with
      | none => []
      | some up => lockLevelsFrom rootLen fuel up

/-- The path and its ancestors up to the root. -/
def lockLevels (rootLen : ℕ) (check : Bytes) : List Bytes :=
  lockLevelsFrom rootLen (check.length + 1) check

/-- The record at `check` is one for `path`: it is there, or it is of infinite depth and `check`
ends where a component of `path` does. -/
def lockCovers (e : LockRecord) (check path : Bytes) : Bool :=
  check.length = path.length
    || (e.depthInfinity && check.length < path.length
      && (check.getLast? = some slash || path[check.length]? = some slash))

/-! ## The gate of the storage layer -/

variable (ctx : LockCtx) (read : Bytes → XattrRead)

/-- Read the record of one level. -/
def brixVfsLockProbeLevel (check path : Bytes) : GateResult :=
  match read check with
  | .absent => .ok
  | .fault => .fault
  | .value raw =>
    match brixLockRecordDecode raw with
    | none => .ok
    | some rec =>
      if rec.expires ≤ ctx.ngxTime then .ok
      else if lockCovers rec check path && !ctx.presents rec.token then .busy
      else .ok

def brixVfsLockProbeMutation (op : MutationOp) (check path : Bytes) : GateResult :=
  if op = .mutateRemove ∧ check.length = path.length ∧ ctx.isLink path then .ok
  else brixVfsLockProbeLevel ctx read check path

def brixVfsLockRefuse (mode : LockMode) : GateResult :=
  if mode = .advisory then .ok else .busy

/-- The loop of `brix_vfs_lock_walk_gate` over its levels: the result, and `clean` -/
def brixVfsLockWalkGate (op : MutationOp) (mode : LockMode) (clearedParent : Option Bytes)
    (path : Bytes) : Bool → List Bytes → GateResult × Bool
  | clean, [] => (.ok, clean)
  | clean, check :: above =>
    if clearedParent = some check ∧ check.length < path.length then (.ok, clean)
    else
      match brixVfsLockProbeMutation ctx read op check path with
      | .busy => (brixVfsLockRefuse mode, false)
      | .fault =>
        if mode = .advisory then
          brixVfsLockWalkGate op mode clearedParent path false above
        else (.fault, clean)
      | .ok => brixVfsLockWalkGate op mode clearedParent path clean above

/-- `brix_vfs_lock_walk_gate`: the walk starts on a copy of the path in a buffer of `PATH_MAX`. -/
def lockWalkGate (op : MutationOp) (mode : LockMode) (clearedParent : Option Bytes)
    (path : Bytes) : GateResult × Bool :=
  brixVfsLockWalkGate ctx read op mode clearedParent path true
    (lockLevels ctx.root.canon.length (path.take (PATH_MAX - 1)))

/-- `brix_vfs_require_unlocked` of a confined path -/
def brixVfsRequireUnlocked (mode : LockMode) (op : MutationOp) (path : Bytes) : GateResult :=
  if mode = .off then .ok else (lockWalkGate ctx read op mode none path).1

/-- The parent of a path that was walked clean up to the root, if it is one of the export -/
def clearedAfter (path : Bytes) : Option Bytes :=
  match brixLockPathAscend (path.take (PATH_MAX - 1)) with
  | none => none
  | some up => if up.length < ctx.root.canon.length ∨ up = [] then none else some up

/-- The loop of `brix_vfs_require_unlocked_many` -/
def requireUnlockedMany (mode : LockMode) (op : MutationOp) :
    Option Bytes → List Bytes → GateResult
  | _, [] => .ok
  | cleared, path :: paths =>
    match lockWalkGate ctx read op mode cleared path with
    | (.ok, clean) =>
      requireUnlockedMany mode op (if clean then clearedAfter ctx path else cleared) paths
    | (bad, _) => bad

/-- `brix_vfs_require_unlocked_many` of confined paths -/
def brixVfsRequireUnlockedMany (mode : LockMode) (op : MutationOp) (paths : List Bytes) :
    GateResult :=
  if mode = .off then .ok else requireUnlockedMany ctx read mode op none paths

/-! ## The edge -/

/-- What the edge answers: `NGX_OK`, 423, 500 -/
inductive EdgeVerdict : Type where
  | ok | locked | error
  deriving DecidableEq

/-- `webdav_check_lock_at`, with the levels whose expired record it has had cleared away so far.
The levels above are other resources, so this is nothing their reads depend on. -/
def webdavCheckLockAt (check path : Bytes) (cleaned : List Bytes) :
    EdgeVerdict × List Bytes :=
  match read check with
  | .absent => (.ok, cleaned)
  | .fault => (.error, cleaned)
  | .value raw =>
    match brixLockRecordDecode raw with
    | none => (.ok, cleaned)
    | some e =>
      if e.expires ≤ ctx.ngxTime then (.ok, check :: cleaned)
      else if lockCovers e check path && !ctx.presents e.token then (.locked, cleaned)
      else (.ok, cleaned)

/-- The loop of `webdav_check_locks` over its levels -/
def checkLocks (path : Bytes) :
    List Bytes → List Bytes → EdgeVerdict × List Bytes
  | [], cleaned => (.ok, cleaned)
  | check :: above, cleaned =>
    match webdavCheckLockAt ctx read check path cleaned with
    | (.ok, cleaned) => checkLocks path above cleaned
    | blocked => blocked

def webdavCheckLocks (path : Bytes) : EdgeVerdict × List Bytes :=
  checkLocks ctx read path (lockLevels ctx.root.canon.length (path.take (PATH_MAX - 1))) []

end BrixCache

/-! ## The levels of a lock walk -/

namespace BrixCache

open Words List

/-! ### Paths in words -/

variable {rel check up : Bytes} {rootLen : ℕ} {root : ExportRoot}

theorem exists_last_name (hne : rel ≠ []) (hhead : rel.head? ≠ some slash) :
    ∃ name k, slash ∉ name ∧ name ≠ [] ∧
      (rel = name ++ replicate k slash ∨
        ∃ pre, pre ≠ [] ∧ pre.head? ≠ some slash ∧
          rel = pre ++ slash :: (name ++ replicate k slash)) := by
  induction rel using reverseRecOn with
  | nil => exact absurd rfl hne
  | append_singleton l c ih =>
    rcases eq_or_ne l [] with rfl | hl
    · exact ⟨[c], 0, by simpa [eq_comm] using hhead, by simp, .inl (by simp)⟩
    rw [head?_append_of_ne_nil _ hl] at hhead
    obtain ⟨name, k, hname, hnne, hform⟩ := ih hl hhead
    by_cases hc : c = slash
    · subst hc
      refine ⟨name, k + 1, hname, hnne, hform.imp (fun h => ?_) ?_⟩
      · rw [h, replicate_succ', append_assoc]
      · rintro ⟨pre, hpre, hphead, h⟩
        exact ⟨pre, hpre, hphead, by simp [h, replicate_succ']⟩
    · cases k with
      | zero =>
        refine ⟨name ++ [c], 0, by simp [hname, Ne.symm hc], by simp, hform.imp (fun h => ?_) ?_⟩
        · simpa using h
        · rintro ⟨pre, hpre, hphead, h⟩
          exact ⟨pre, hpre, hphead, by simp [h]⟩
      | succ k =>
        -- the slashes after the old last name part it from a new one
        obtain ⟨pre, hpre⟩ : ∃ pre, l = pre ++ [slash] := by
          rcases hform with h | ⟨pre, -, -, h⟩
          · exact ⟨name ++ replicate k slash, by simp [h, replicate_succ']⟩
          · exact ⟨pre ++ slash :: (name ++ replicate k slash),
              by simp [h, replicate_succ']⟩
        have hne' : pre ≠ [] := by
          rintro rfl
          simp [hpre] at hhead
        refine ⟨[c], 0, by simpa [eq_comm] using hc, by simp, .inr ⟨pre, hne', ?_, ?_⟩⟩
        · rwa [hpre, head?_append_of_ne_nil _ hne'] at hhead
        · simp [hpre]

theorem words_name {name : Bytes} (hname : slash ∉ name) (hne : name ≠ []) (k : ℕ) :
    words slash (name ++ replicate k slash) = [name] := by
  cases k with
  | zero => simpa using words_eq_self hname hne
  | succ k => rw [replicate_succ, words_append_sep hname hne, words_replicate]

theorem ExportRoot.words_canon (root : ExportRoot) : words slash root.canon = root.names := by
  rw [ExportRoot.canon]
  split
  · next h => rw [h]; rfl
  · exact words_flatMap root.proper

/-! ### Going up -/

theorem lockNext_begins (h : lockNext rootLen check = some up) : up ++ [slash] <+: check := by
  rw [lockNext] at h
  split at h
  · cases h
  · split at h
    · cases h
    · next up' hup =>
      split at h
      · cases h
      · exact Option.some.inj h ▸ brixLockPathAscend_begins hup

theorem lockNext_length (h : lockNext rootLen check = some up) : up.length < check.length := by
  simpa [Nat.succ_le_iff] using (lockNext_begins h).length_le

theorem lockLevelsFrom_enough {n m : ℕ} (hn : check.length < n) (hm : check.length < m) :
    lockLevelsFrom rootLen n check = lockLevelsFrom rootLen m check := by
  induction n generalizing check m with
  | zero => exact absurd hn (Nat.not_lt_zero _)
  | succ n ih =>
    obtain ⟨m, rfl⟩ := Nat.exists_eq_succ_of_ne_zero (Nat.ne_of_gt (Nat.zero_lt_of_lt hm))
    rw [lockLevelsFrom, lockLevelsFrom]
    cases hnext : lockNext rootLen check with
    | none => rfl
    | some up =>
      have hlt := lockNext_length hnext
      have hup : lockLevelsFrom rootLen n up = lockLevelsFrom rootLen m up :=
        ih (by omega) (by omega)
      simp only [hup]

theorem lockLevels_eq (rootLen : ℕ) (check : Bytes) :
    lockLevels rootLen check
      = check :: match lockNext rootLen check with
        | none => []
        | some up => lockLevels rootLen up := by
  rw [lockLevels, lockLevelsFrom]
  cases hnext : lockNext rootLen check with
  | none => rfl
  | some up =>
    have hlt := lockNext_length hnext
    simp only [lockLevels]
    rw [lockLevelsFrom_enough hlt (Nat.lt_succ_self up.length)]

theorem mem_lockLevels_tail {path : Bytes}
    (h : check ∈ (lockLevels rootLen path).tail) : check ++ [slash] <+: path := by
  induction hn : path.length using Nat.strongRecOn generalizing path with
  | ind n ih =>
    rw [lockLevels_eq, tail_cons] at h
    cases hnext : lockNext rootLen path with
    | none => simp [hnext] at h
    | some up =>
      have hup := lockNext_begins hnext
      simp only [hnext] at h
      rw [lockLevels_eq] at h
      rcases mem_cons.mp h with rfl | hrest
      · exact hup
      · have htail : check ∈ (lockLevels rootLen up).tail := by
          rwa [lockLevels_eq, tail_cons]
        have hprefix := ih up.length (hn ▸ lockNext_length hnext) htail rfl
        exact hprefix.trans ((prefix_append up [slash]).trans hup)

/-! ### Under the root -/

/-- What a path below the root begins with: the root, but nothing under the root directory -/
def ExportRoot.base (root : ExportRoot) : Bytes := root.names.flatMap (slash :: ·)

theorem ExportRoot.words_base (root : ExportRoot) : words slash root.base = root.names :=
  words_flatMap root.proper

theorem ExportRoot.canon_eq_base (h : root.names ≠ []) :
    root.canon = root.base := if_neg h

theorem brixBeneathFullPath_cases {req path : Bytes}
    (h : brixBeneathFullPath root.canon req PATH_MAX = some path) :
    path.length < PATH_MAX ∧ (path = root.canon ∨
      ∃ rel, rel ≠ [] ∧ rel.head? ≠ some slash ∧ path = root.base ++ slash :: rel) := by
  simp only [brixBeneathFullPath, Option.ite_none_right_eq_some, Option.some.injEq] at h
  obtain ⟨hfits, rfl⟩ := h
  refine ⟨hfits, ?_⟩
  have hhead : (req.dropWhile (· = slash)).head? ≠ some slash := by
    intro hc
    have h := head?_dropWhile_not (· = slash) req
    rw [hc] at h
    simp at h
  by_cases hrel : req.dropWhile (· = slash) = []
  · exact .inl (if_pos hrel)
  · refine .inr ⟨_, hrel, hhead, ?_⟩
    rw [if_neg hrel]
    by_cases hroot : root.names = []
    · simp [ExportRoot.canon, ExportRoot.base, hroot]
    · rw [root.canon_eq_base hroot, if_neg]
      intro hslash
      have h := root.words_base
      rw [hslash] at h
      exact hroot h.symm

theorem words_below (hne : rel ≠ []) (hhead : rel.head? ≠ some slash) :
    words slash rel ≠ [] := by
  obtain ⟨name, k, hname, hnne, rfl | ⟨pre, -, -, rfl⟩⟩ := exists_last_name hne hhead
  · simp [words_name hname hnne]
  · simp [words_append, words_name hname hnne]

theorem lockNext_below (root : ExportRoot) (hne : rel ≠ [])
    (hup : brixLockPathAscend (root.base ++ slash :: rel) = some up) :
    lockNext root.canon.length (root.base ++ slash :: rel)
      = if up.length < root.canon.length then none else some up := by
  have hlen : ¬(root.base ++ slash :: rel).length ≤ root.canon.length := by
    have hpos := length_pos_of_ne_nil hne
    by_cases hroot : root.names = []
    · simp [ExportRoot.canon, ExportRoot.base, hroot]
      omega
    · simp [root.canon_eq_base hroot]
  simp only [lockNext, if_neg hlen, hup]

theorem above_concat {names up : List Bytes} {name : Bytes} {q : Resource}
    (hup : names <+: up) :
    (names <+: q ∧ q <+: up ++ [name] ∧ q ≠ up ++ [name]) ↔ q = up ∨
      (names <+: q ∧ q <+: up ∧ q ≠ up) := by
  rw [prefix_concat_iff]
  constructor
  · rintro ⟨h₁, h | h, h₃⟩
    · exact absurd h h₃
    · by_cases hq : q = up
      · exact .inl hq
      · exact .inr ⟨h₁, h, hq⟩
  · rintro (rfl | ⟨h₁, h₂, h₃⟩)
    · exact ⟨hup, .inr prefix_rfl, by simp⟩
    · refine ⟨h₁, .inr h₂, ?_⟩
      rintro rfl
      have h := h₂.length_le
      rw [length_append] at h
      exact absurd h (by simp)

theorem not_between {names q : Resource} : ¬(names <+: q ∧ q <+: names ∧ q ≠ names) :=
  fun ⟨h₁, h₂, h₃⟩ => h₃ (h₂.eq_of_length_le h₁.length_le)

/-- The levels that are probed are the names over the path. -/
theorem lockLevels_below (root : ExportRoot) (hne : rel ≠ [])
    (hhead : rel.head? ≠ some slash) (q : Resource) :
    q ∈ ((lockLevels root.canon.length (root.base ++ slash :: rel)).tail).map (words slash) ↔
      (root.names <+: q ∧ q <+: root.names ++ words slash rel ∧
        q ≠ root.names ++ words slash rel) ∧ (root.names = [] → q ≠ []) := by
  induction hn : rel.length using Nat.strongRecOn generalizing rel with
  | ind n ih =>
    obtain ⟨name, k, hname, hnne, rfl | ⟨pre, hpre, hphead, rfl⟩⟩ := exists_last_name hne hhead
    · rw [lockLevels_eq, tail_cons, words_name hname hnne,
        lockNext_below root hne (brixLockPathAscend_name hname hnne k),
        above_concat prefix_rfl]
      by_cases hroot : root.names = []
      · simp [ExportRoot.canon, ExportRoot.base, hroot]
      · rw [root.canon_eq_base hroot, if_neg (lt_irrefl _)]
        simp only
        rw [lockLevels_eq, lockNext, if_pos le_rfl]
        simp [root.words_base, hroot, not_between]
    · have hascend := @brixLockPathAscend_name (root.base ++ slash :: pre) _ hname hnne k
      rw [append_assoc, cons_append] at hascend
      have hlen : ¬(root.base ++ slash :: pre).length < root.canon.length := by
        by_cases hroot : root.names = []
        · simp [ExportRoot.canon, ExportRoot.base, hroot]
        · simp [root.canon_eq_base hroot]
      have hwords : words slash (root.base ++ slash :: pre) = root.names ++ words slash pre := by
        rw [words_append, root.words_base]
      have hnil : q = root.names ++ words slash pre → q ≠ [] := by
        rintro rfl h
        exact words_below hpre hphead (append_eq_nil_iff.mp h).2
      have hlt : pre.length < n := by
        rw [← hn]
        simp
      rw [lockLevels_eq, tail_cons, lockNext_below root hne hascend, if_neg hlen, words_append,
        words_name hname hnne, ← append_assoc, above_concat (prefix_append _ _), or_and_right,
        ← ih pre.length hlt hpre hphead rfl]
      simp only
      rw [lockLevels_eq, map_cons, mem_cons, hwords, tail_cons]
      refine or_congr ⟨fun h => ⟨h, fun _ => hnil h⟩, And.left⟩ Iff.rfl

/-- **The levels of a walk.** Above a target it looks at every resource from the root on, but not
at the root directory. -/
theorem lockLevels_above (t : ConfinedPath root) (q : Resource) :
    q ∈ ((lockLevels root.canon.length t.path).tail).map (words slash) ↔
      (root.names <+: q ∧ q <+: words slash t.path ∧ q ≠ words slash t.path) ∧
        (root.names = [] → q ≠ []) := by
  obtain ⟨-, h | ⟨rel, hne, hhead, h⟩⟩ := brixBeneathFullPath_cases t.joined
  · rw [h, root.words_canon, lockLevels_eq, lockNext, if_pos le_rfl]
    simp [not_between]
  · rw [h, words_append, root.words_base]
    exact lockLevels_below root hne hhead q

end BrixCache
