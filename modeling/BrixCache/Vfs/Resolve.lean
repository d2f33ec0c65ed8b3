import BrixCache.Core.Ascii
import BrixCache.Lib.FileTree
import BrixCache.Lib.Segments
import BrixCache.Lib.Words

/-!
# Resolving a path below a root

`unified.c`, `unified_build.c` and `unified_resolve.c`: a request is checked and joined
to the root, and what `realpath(3)` makes of it is compared with the root. Where there is
nothing, a part of it is resolved and the rest is put behind it as text. The file system
is a tree of files and links.
-/

namespace BrixCache

open Segments Words List

/-! ## The file system -/

/-- A name in a directory -/
structure FsName : Type where
  text : Bytes
  ne_nil : text ≠ []
  no_slash : slash ∉ text
  ne_dot : text ≠ [46]
  ne_dotdot : text ≠ [46, 46]
  deriving DecidableEq

def fsStep (w : Bytes) : PathStep FsName :=
  if hdot : w = [46] then .here
  else if hdotdot : w = [46, 46] then .up
  else if h : w ≠ [] ∧ slash ∉ w then .name ⟨w, h.1, h.2, hdot, hdotdot⟩
  else .here

/-- The steps of a path's text. -/
def pathSteps (text : Bytes) : List (PathStep FsName) :=
  (words slash text).map fsStep ++ if text.getLast? = some slash then [.here] else []

def pathFlat (p : List FsName) : Bytes := p.flatMap (slash :: ·.text)

def pathText (p : List FsName) : Bytes := if p = [] then [slash] else pathFlat p

/-- The entries of `/`, the links that a walk takes at most, and the working directory. -/
structure FileSystem : Type where
  top : FsName → FileTree FsName
  maxLinks : ℕ
  cwd : List FsName

/-- `PATH_MAX` -/
def posixPathMax : ℕ := 4096

namespace FileSystem

def tree (fs : FileSystem) : FileTree FsName := .dir fs.top

def lookup (fs : FileSystem) (text : Bytes) : Except WalkError (List FsName) :=
  if text = [] then .error .enoent
  else
    FileTree.resolve fs.tree fs.maxLinks (if text.head? = some slash then [] else fs.cwd)
      (pathSteps text)

/-- The canonical path, every link followed. -/
def realpath (fs : FileSystem) (text : Bytes) : Except WalkError Bytes :=
  match fs.lookup text with
  | .error e => .error e
  | .ok p => if posixPathMax ≤ (pathText p).length then .error .enametoolong else .ok (pathText p)

end FileSystem

/-! ## Options and answers -/

/-- `brix_path_opts_t` -/
structure PathOpts : Type where
  allowMissingTail : Bool
  requireDirectory : Bool
  allowMissingParents : Bool
  isWriteOperation : Bool
  rejectSymlinks : Bool
  allowRoot : Bool
  deriving DecidableEq

def PathOpts.zero : PathOpts := ⟨false, false, false, false, false, false⟩

/-- `brix_path_status_t`, but for `BRIX_PATH_STATUS_OK` -/
inductive PathStatus : Type where
  | invalid
  | notFound
  | tooLong
  | error
  deriving DecidableEq

/-- `BRIX_PATH_TYPE_NOT_FOUND`, `S_IFDIR` and `S_IFREG` -/
inductive PathType : Type where
  | notFound
  | dir
  | reg
  deriving DecidableEq

/-- `brix_path_result_t` -/
structure PathResult : Type where
  resolved : Bytes
  type : PathType
  depth : ℕ
  isConfined : Bool
  deriving DecidableEq

/-! ## Building the candidate -/

def brixMaxPath : ℕ := 4096

def brixMaxWalkDepth : ℕ := 32

/-- The loop of `brix_count_path_depth`. -/
def countPathDepthFrom : Bytes → ℕ
  | [] => 0
  | c :: cs => (if c = slash ∧ cs ≠ [] then 1 else 0) + countPathDepthFrom cs

/-- At most 32 components. -/
def brixCountPathDepth (path : Bytes) : Bool :=
  match path.dropWhile (· = slash) with
  | [] => true
  | c :: cs => 1 + countPathDepthFrom (c :: cs) ≤ brixMaxWalkDepth

def brixPathComponentForbidden (comp : Bytes) : Bool := comp = [46] || comp = [46, 46]

/-- `brix_validate_components_cstr` -/
def brixValidateComponents (path : Bytes) : Except PathStatus Unit :=
  if brixMaxPath < path.length then .error .tooLong
  else if brixCountPathDepth path = false then .error .invalid
  else if (words slash path).any brixPathComponentForbidden then .error .invalid
  else .ok ()

/-- `brix_has_trailing_slash_cstr` -/
def brixHasTrailingSlash (path : Bytes) : Bool := path.getLast? = some slash

def brixCopyCstr (cap : ℕ) (src : Bytes) : Except PathStatus Bytes :=
  if cap = 0 then .error .error else if cap ≤ src.length then .error .tooLong else .ok src

def brixAppendComponent (path component : Bytes) : Except PathStatus Bytes :=
  if 1 < path.length then
    if posixPathMax ≤ path.length + 1 then .error .tooLong
    else if posixPathMax ≤ path.length + 1 + component.length then .error .tooLong
    else .ok (path ++ slash :: component)
  else if posixPathMax ≤ path.length + component.length then .error .tooLong
  else .ok (path ++ component)

/-- `brix_candidate_init_root`: the slashes at the end are left out, but for the first byte. -/
def brixCandidateInitRoot (root : Bytes) : Except PathStatus Bytes :=
  if root.length = 0 ∨ posixPathMax ≤ root.length then .error .tooLong
  else .ok (root.take 1 ++ ((root.drop 1).reverse.dropWhile (· = slash)).reverse)

def brixCandidateAppendReq (candidate : Bytes) : List Bytes →
    Except PathStatus Bytes
  | [] => .ok candidate
  | w :: ws =>
    match brixAppendComponent candidate w with
    | .error e => .error e
    | .ok candidate => brixCandidateAppendReq candidate ws

/-- `brix_build_candidate`, and the depth -/
def brixBuildCandidate (root req : Bytes) (opts : PathOpts) :
    Except PathStatus (Bytes × ℕ) :=
  if root = [] then .error .invalid
  else
    match brixCandidateInitRoot root with
    | .error e => .error e
    | .ok candidate =>
      if (words slash req).length = 0 then
        if opts.allowRoot then .ok (candidate, 0) else .error .invalid
      else
        match brixCandidateAppendReq candidate (words slash req) with
        | .error e => .error e
        | .ok candidate => .ok (candidate, (words slash req).length)

/-! ## Resolving it -/

/-- The root itself or a path below it. -/
def brixPathWithinRoot (root path : Bytes) : Bool :=
  if root = [slash] then path.head? = some slash
  else path.take root.length = root &&
    (path[root.length]? = none || path[root.length]? = some slash)

/-- `brix_stat_type_cstr`; none for an error that is not `ENOENT`. -/
def brixStatType (fs : FileSystem) (path : Bytes) : Option PathType :=
  match fs.lookup path with
  | .error .enoent => some .notFound
  | .error _ => none
  | .ok p => some (if (fs.tree.get p).isDir then .dir else .reg)

/-- What a call was given: the root, the size of the buffer, and the depth of the request. -/
structure ResolveCtx : Type where
  root : Bytes
  resolvsz : ℕ
  depth : ℕ

def brixFinishResolved (fs : FileSystem) (ctx : ResolveCtx) (path : Bytes)
    (opts : PathOpts) : Except PathStatus PathResult :=
  if brixPathWithinRoot ctx.root path = false then .error .invalid
  else
    let type := (brixStatType fs path).orElse fun _ =>
      if opts.allowMissingTail ∨ opts.allowMissingParents then some .notFound else none
    match type with
    | none => .error .error
    | some type =>
      if opts.requireDirectory ∧ type ≠ .dir then .error .invalid
      else
        match brixCopyCstr ctx.resolvsz path with
        | .error e => .error e
        | .ok resolved => .ok ⟨resolved, type, ctx.depth, true⟩

/-- Resolve the parent and append the missing name. -/
def brixResolveMissingTail (fs : FileSystem) (ctx : ResolveCtx) (candidate : Bytes) :
    Except PathStatus PathResult :=
  if posixPathMax ≤ candidate.length then .error .tooLong
  else
    match beforeLast slash candidate with
    | none => .error .invalid
    | some d =>
      let base := candidate.drop (d.length + 1)
      if base = [] then .error .invalid
      else
        match fs.realpath (if d = [] then [slash] else d) with
        | .error .enoent => .error .notFound
        | .error _ => .error .error
        | .ok parentCanon =>
          if brixPathWithinRoot ctx.root parentCanon = false then .error .invalid
          else
            let rebuilt := if parentCanon = [slash] then slash :: base
              else parentCanon ++ slash :: base
            if posixPathMax ≤ rebuilt.length then .error .tooLong
            else
              brixFinishResolved fs ctx rebuilt
                { PathOpts.zero with allowMissingTail := true, isWriteOperation := true }

/-- `brix_walk_to_existing_ancestor`: the ancestor as it is written, and as it is. -/
def brixWalkToExistingAncestor (fs : FileSystem) (ancestor : Bytes) :
    Except PathStatus (Bytes × Bytes) :=
  match fs.realpath ancestor with
  | .ok canon => .ok (ancestor, canon)
  | .error .enoent =>
    match _h : beforeLast slash ancestor with
    | none => .error .notFound
    | some d =>
      if d = [] ∨ d = [slash] then
        match fs.realpath [slash] with
        | .ok canon => .ok ([slash], canon)
        | .error _ => .error .notFound
      else brixWalkToExistingAncestor fs d
  | .error _ => .error .error
  termination_by ancestor.length
  decreasing_by exact length_beforeLast _h

/-- Resolve the longest prefix that exists. -/
def brixResolveMissingParents (fs : FileSystem) (ctx : ResolveCtx) (candidate : Bytes) :
    Except PathStatus PathResult :=
  if posixPathMax ≤ candidate.length then .error .tooLong
  else
    match brixWalkToExistingAncestor fs candidate with
    | .error e => .error e
    | .ok (ancestor, ancestorCanon) =>
      if brixPathWithinRoot ctx.root ancestorCanon = false then .error .invalid
      else
        let rebuilt :=
          if ancestor = [slash] then
            if ancestorCanon = [slash] then slash :: candidate.drop 1
            else ancestorCanon ++ slash :: candidate.drop 1
          else ancestorCanon ++ candidate.drop ancestor.length
        if posixPathMax ≤ rebuilt.length then .error .tooLong
        else
          brixFinishResolved fs ctx rebuilt { PathOpts.zero with allowMissingParents := true }

/-- Resolve a request below the root. -/
def brixPathResolveCstr (fs : FileSystem) (root req : Bytes) (opts : PathOpts)
    (resolvsz : ℕ) : Except PathStatus PathResult :=
  match brixValidateComponents req with
  | .error e => .error e
  | .ok () =>
    if opts.allowMissingTail && !opts.allowMissingParents && brixHasTrailingSlash req then
      .error .invalid
    else
      match brixBuildCandidate root req opts with
      | .error e => .error e
      | .ok (candidate, depth) =>
        match fs.realpath candidate with
        | .ok canonical => brixFinishResolved fs ⟨root, resolvsz, depth⟩ canonical opts
        | .error .enoent =>
          if opts.allowMissingParents then
            brixResolveMissingParents fs ⟨root, resolvsz, depth⟩ candidate
          else if opts.allowMissingTail then
            brixResolveMissingTail fs ⟨root, resolvsz, depth⟩ candidate
          else .error .notFound
        | .error _ => .error .error

/-! ## Texts of canonical paths -/

variable {p q r cs : List FsName} {x : FsName} {req t : Bytes}

theorem FsName.text_injective : Function.Injective FsName.text := by
  rintro ⟨a, _, _, _, _⟩ ⟨b, _, _, _, _⟩ h
  cases h
  rfl

@[simp] theorem fsStep_text (x : FsName) : fsStep x.text = .name x := by
  rw [fsStep, dif_neg x.ne_dot, dif_neg x.ne_dotdot, dif_pos ⟨x.ne_nil, x.no_slash⟩]

@[simp] theorem pathFlat_nil : pathFlat [] = [] := rfl

theorem pathFlat_cons (x : FsName) (p : List FsName) :
    pathFlat (x :: p) = slash :: (x.text ++ pathFlat p) := rfl

theorem pathFlat_append (p q : List FsName) : pathFlat (p ++ q) = pathFlat p ++ pathFlat q :=
  flatMap_append

theorem pathFlat_concat (p : List FsName) (x : FsName) :
    pathFlat (p ++ [x]) = pathFlat p ++ slash :: x.text := by
  rw [pathFlat_append, pathFlat_cons, pathFlat_nil, append_nil]

theorem pathFlat_eq_nil : pathFlat p = [] ↔ p = [] := by
  cases p <;> simp [pathFlat]

theorem pathText_of_ne_nil (h : p ≠ []) : pathText p = pathFlat p := if_neg h

theorem pathText_concat (p : List FsName) (x : FsName) :
    pathText (p ++ [x]) = pathFlat p ++ slash :: x.text := by
  rw [pathText_of_ne_nil (by simp), pathFlat_concat]

theorem pathText_ne_nil (p : List FsName) : pathText p ≠ [] := by
  rw [pathText]
  split
  · simp
  · next h => exact fun hnil => h (pathFlat_eq_nil.mp hnil)

theorem head_pathText (p : List FsName) : (pathText p).head? = some slash := by
  cases p with
  | nil | cons x p => rfl

theorem length_pathText_le (p q : List FsName) :
    (pathText p).length ≤ (pathText (p ++ q)).length := by
  cases p with
  | nil =>
    have hne := length_pos_iff.mpr (pathText_ne_nil ([] ++ q))
    exact hne
  | cons x p =>
    rw [pathText_of_ne_nil (by simp), pathText_of_ne_nil (by simp), pathFlat_append,
      length_append]
    exact Nat.le_add_right _ _

theorem words_pathFlat (p : List FsName) : words slash (pathFlat p) = p.map (·.text) := by
  have h : pathFlat p = (p.map (·.text)).flatMap (slash :: ·) := by
    rw [pathFlat, flatMap_map]
  rw [h]
  refine words_flatMap ?_
  intro w hw
  obtain ⟨x, -, rfl⟩ := mem_map.mp hw
  exact ⟨x.no_slash, x.ne_nil⟩

theorem words_pathText (p : List FsName) : words slash (pathText p) = p.map (·.text) := by
  rw [pathText]
  split
  · next h =>
    subst h
    rfl
  · exact words_pathFlat p

theorem map_text_injective : Function.Injective (map FsName.text) :=
  map_injective_iff.mpr FsName.text_injective

theorem pathText_injective : Function.Injective pathText := by
  intro p q h
  apply map_text_injective
  rw [← words_pathText, ← words_pathText, h]

theorem exists_names {ws : List Bytes} (h : ∀ w ∈ ws, slash ∉ w ∧ w ≠ [])
    (hok : ∀ w ∈ ws, brixPathComponentForbidden w = false) :
    ∃ cs : List FsName, ws = cs.map (·.text) := by
  induction ws with
  | nil => exact ⟨[], rfl⟩
  | cons w ws ih =>
    obtain ⟨cs, hcs⟩ := ih (fun v hv => h v (mem_cons_of_mem w hv))
      fun v hv => hok v (mem_cons_of_mem w hv)
    obtain ⟨hslash, hne⟩ := h w mem_cons_self
    have hdots := hok w mem_cons_self
    simp only [brixPathComponentForbidden, Bool.or_eq_false_iff, decide_eq_false_iff_not] at hdots
    exact ⟨⟨w, hne, hslash, hdots.1, hdots.2⟩ :: cs, by rw [map_cons, hcs]⟩

theorem beforeLast_pathText (p : List FsName) (x : FsName) :
    beforeLast slash (pathText (p ++ [x])) = some (pathFlat p) := by
  rw [pathText_concat]
  exact beforeLast_eq_some.mpr ⟨x.text, rfl, x.no_slash⟩

theorem pathText_eq (p : List FsName) :
    (if pathFlat p = [] then [slash] else pathFlat p) = pathText p := by
  rw [pathText]
  simp only [pathFlat_eq_nil]

/-- A text is within the root exactly if its names begin with the root's. -/
theorem withinRoot_iff : brixPathWithinRoot (pathText r) (pathText p) = true ↔ r <+: p := by
  by_cases hr : r = []
  · subst hr
    have hroot : pathText [] = [slash] := rfl
    simp [brixPathWithinRoot, hroot, head_pathText]
  · have hne : pathFlat r ≠ [slash] := by
      intro heq
      have hwords := congrArg (words slash) heq
      rw [words_pathFlat] at hwords
      exact hr (map_eq_nil_iff.mp hwords)
    rw [brixPathWithinRoot, pathText_of_ne_nil hr, if_neg hne]
    simp only [Bool.and_eq_true, Bool.or_eq_true, decide_eq_true_eq]
    constructor
    · rintro ⟨htake, hnext⟩
      obtain ⟨t, ht⟩ : ∃ t, pathText p = pathFlat r ++ t := by
        refine ⟨(pathText p).drop (pathFlat r).length, ?_⟩
        conv_lhs => rw [← take_append_drop (pathFlat r).length (pathText p), htake]
      have hwords : p.map (·.text) = r.map (·.text) ++ words slash t := by
        rw [← words_pathText p, ht]
        cases t with
        | nil =>
          rw [append_nil, words_pathFlat]
          exact (append_nil _).symm
        | cons c t =>
          have hc : c = slash := by simpa [ht] using hnext
          rw [hc, words_append, words_pathFlat, words_sep_cons]
      have htake := congrArg (take r.length) hwords
      rw [← map_take, take_left' (length_map _)] at htake
      have hprefix : p.take r.length = r := map_text_injective htake
      exact hprefix ▸ List.take_prefix r.length p
    · rintro ⟨rest, rfl⟩
      rw [pathText_of_ne_nil (by simp [hr]), pathFlat_append]
      cases rest with
      | nil => simp
      | cons y rest => simp [pathFlat_cons]

/-! ## Walks of canonical paths -/

theorem pathSteps_pathText (h : p ≠ []) : pathSteps (pathText p) = p.map .name := by
  have hlast : (pathText p).getLast? ≠ some slash := by
    rcases eq_nil_or_concat p with rfl | ⟨q, x, rfl⟩
    · exact absurd rfl h
    · rw [concat_eq_append, pathText_concat]
      intro hlast
      have hlast : (slash :: x.text).getLast? = some slash := by
        simpa [getLast?_append] using hlast
      rw [getLast?_cons, getLast?_eq_some_getLast x.ne_nil] at hlast
      exact x.no_slash (Option.some.inj hlast ▸ getLast_mem x.ne_nil)
  rw [pathSteps, words_pathText, if_neg hlast, append_nil, map_map]
  exact map_congr_left fun x _ => fsStep_text x

theorem lookup_pathText (fs : FileSystem) (p : List FsName) :
    fs.lookup (pathText p) = FileTree.resolve fs.tree fs.maxLinks [] (p.map .name) := by
  rw [FileSystem.lookup, if_neg (pathText_ne_nil p), if_pos (head_pathText p)]
  cases p with
  | nil =>
    have hsteps : pathSteps (pathText []) = [.here] := rfl
    rw [hsteps, FileTree.resolve_cons, map_nil, FileTree.resolve_nil]
    rfl
  | cons x p => rw [pathSteps_pathText (by simp)]

end BrixCache
