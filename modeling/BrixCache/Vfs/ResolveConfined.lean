import BrixCache.Vfs.Resolve

/-!
# What is resolved below a root

A path that is there is resolved to one without links. Of a path that is not there, the
part that is there is resolved, and the next name is missing in the directory come to, or
it is a link to nothing: nothing is found behind the link either, and so it is taken for a
name that is free. The answer then has a link in it, and a file made at it is made where
the link points.
-/

namespace BrixCache

open Segments Words List

/-- The answer is the root or below it, its components are names, and none of the paths to it
below the root is a link. -/
def Confined (fs : FileSystem) (root : List FsName) (resolved : Bytes) : Prop :=
  ∃ p : List FsName, resolved = pathText p ∧ root <+: p ∧
    ∀ q, root <+: q → q ≠ root → q <+: p → ¬FileTree.IsLink fs.tree q

variable {fs : FileSystem} {root a q p post cs : List FsName} {x : FsName} {req t : Bytes}
  {opts : PathOpts} {size : ℕ} {ctx : ResolveCtx} {res : PathResult}

/-! ## `realpath` of canonical paths -/

theorem realpath_eq_ok : fs.realpath (pathText p) = .ok t ↔
    ∃ q, fs.lookup (pathText p) = .ok q ∧ (pathText q).length < posixPathMax ∧ t = pathText q := by
  rw [FileSystem.realpath]
  cases hlookup : fs.lookup (pathText p) with
  | error e => simp
  | ok q =>
    by_cases hlen : posixPathMax ≤ (pathText q).length
    · simp [hlen, Nat.not_lt.mpr hlen]
    · simp [hlen, Nat.not_le.mp hlen, eq_comm]

theorem realpath_eq_enoent : fs.realpath (pathText p) = .error .enoent ↔
    fs.lookup (pathText p) = .error .enoent := by
  rw [FileSystem.realpath]
  cases hlookup : fs.lookup (pathText p) with
  | error e => simp
  | ok q => by_cases hlen : posixPathMax ≤ (pathText q).length <;> simp [hlen]

theorem realpath_of_lookup (h : fs.lookup (pathText p) = .ok q) :
    fs.realpath (pathText p) =
      if posixPathMax ≤ (pathText q).length then .error .enametoolong else .ok (pathText q) := by
  rw [FileSystem.realpath, h]

theorem lookup_root (fs : FileSystem) : fs.lookup (pathText []) = .ok [] := by
  rw [lookup_pathText, map_nil, FileTree.resolve_nil]

theorem lookup_solid (h : fs.lookup (pathText p) = .ok q) : FileTree.Solid fs.tree q := by
  rw [lookup_pathText] at h
  exact FileTree.resolve_solid rfl (.of_isDir rfl) h

theorem lookup_of_solid (h : FileTree.Solid fs.tree p) : fs.lookup (pathText p) = .ok p := by
  rw [lookup_pathText, FileTree.resolve_names (by simpa using h), nil_append]

/-- A walk comes to `q` at `a`, and no further. -/
structure StopsAt (fs : FileSystem) (a : List FsName) (x : FsName) (q : List FsName) : Prop where
  ok : fs.lookup (pathText a) = .ok q
  enoent : fs.lookup (pathText (a ++ [x])) = .error .enoent

theorem exists_stopsAt (h : fs.lookup (pathText p) = .error .enoent) :
    ∃ a x post q, p = a ++ x :: post ∧ StopsAt fs a x q := by
  rw [lookup_pathText] at h
  obtain ⟨a, x, post, q, heq, hok, hno⟩ := FileTree.exists_stop h
  exact ⟨a, x, post, q, heq, by rw [lookup_pathText, hok], by rw [lookup_pathText, hno]⟩

theorem StopsAt.longer (h : StopsAt fs a x q) (post : List FsName) :
    fs.lookup (pathText (a ++ x :: post)) = .error .enoent := by
  have hno := h.enoent
  rw [lookup_pathText] at hno ⊢
  have hmore := FileTree.resolve_append_error hno (post.map .name)
  rwa [← map_append, append_assoc] at hmore

theorem StopsAt.absent_or_isLink (h : StopsAt fs a x q) :
    fs.tree.get (q ++ [x]) = .absent ∨ FileTree.IsLink fs.tree (q ++ [x]) := by
  have hok := h.ok
  have hno := h.enoent
  rw [lookup_pathText] at hok hno
  obtain ⟨m, -, hmore⟩ := FileTree.resolve_append hok
  rw [map_append, hmore] at hno
  exact FileTree.absent_or_isLink hno

theorem not_isLink_of_absent (hsolid : FileTree.Solid fs.tree q)
    (habsent : fs.tree.get (q ++ [x]) = .absent) (hp : p <+: q ++ x :: post) :
    ¬FileTree.IsLink fs.tree p := by
  rintro ⟨absolute, steps, hlink⟩
  have hbelow : q ++ [x] <+: q ++ x :: post := ⟨post, by simp⟩
  obtain hin | ⟨rest, rfl⟩ := List.prefix_or_prefix_of_prefix hp hbelow
  · obtain rfl | hin := prefix_concat_iff.mp hin
    · rw [habsent] at hlink
      cases hlink
    · exact (hsolid.above hin).not_isLink ⟨absolute, steps, hlink⟩
  · rw [FileTree.get_append, habsent, NameTree.get_absent] at hlink
    cases hlink

/-! ## The candidate -/

theorem initRoot_pathText (r : List FsName) : brixCandidateInitRoot (pathText r) =
    if posixPathMax ≤ (pathText r).length then .error .tooLong else .ok (pathText r) := by
  have hne : (pathText r).length ≠ 0 := by
    simpa using pathText_ne_nil r
  have hstrip : (pathText r).take 1 ++
      (((pathText r).drop 1).reverse.dropWhile (· = slash)).reverse = pathText r := by
    rcases eq_nil_or_concat r with rfl | ⟨r, x, rfl⟩
    · rfl
    · obtain ⟨w, c, hw⟩ := (eq_nil_or_concat x.text).resolve_left x.ne_nil
      have hc : c ≠ slash := by
        rintro rfl
        exact x.no_slash (by simp [hw])
      rw [concat_eq_append, pathText_concat, hw, concat_eq_append]
      cases pathFlat r with
      | nil | cons b rest => simp [hc]
  rw [brixCandidateInitRoot, hstrip]
  simp [hne]

theorem appendComponent_pathText (p : List FsName) (x : FsName) :
    brixAppendComponent (pathText p) x.text =
      if posixPathMax ≤ (pathText (p ++ [x])).length then .error .tooLong
      else .ok (pathText (p ++ [x])) := by
  have hpos : 0 < x.text.length := length_pos_iff.mpr x.ne_nil
  rw [pathText_concat, brixAppendComponent]
  cases p with
  | nil =>
    have hroot : pathText [] = [slash] := rfl
    rw [hroot, if_neg (by simp), length_singleton, Nat.add_comm]
    rfl
  | cons y p =>
    have hy : 0 < y.text.length := length_pos_iff.mpr y.ne_nil
    have hlen : 1 < (pathFlat (y :: p)).length := by
      rw [pathFlat_cons, length_cons, length_append]
      omega
    rw [pathText_of_ne_nil (by simp), if_pos hlen, length_append, length_cons]
    by_cases h₁ : posixPathMax ≤ (pathFlat (y :: p)).length + 1
    · rw [if_pos h₁, if_pos (by omega)]
    · rw [if_neg h₁]
      have hsum : (pathFlat (y :: p)).length + 1 + x.text.length =
          (pathFlat (y :: p)).length + (x.text.length + 1) := by omega
      rw [hsum]

theorem appendReq_eq_ok {c : Bytes} (hp : (pathText p).length < posixPathMax) :
    brixCandidateAppendReq (pathText p) (cs.map (·.text)) = .ok c ↔
      (pathText (p ++ cs)).length < posixPathMax ∧ c = pathText (p ++ cs) := by
  induction cs generalizing p with
  | nil =>
    rw [append_nil, map_nil, brixCandidateAppendReq]
    simp [hp, eq_comm]
  | cons x cs ih =>
    have hassoc : p ++ [x] ++ cs = p ++ x :: cs := by simp
    rw [map_cons, brixCandidateAppendReq, appendComponent_pathText]
    by_cases hlong : posixPathMax ≤ (pathText (p ++ [x])).length
    · have hle := length_pathText_le (p ++ [x]) cs
      rw [hassoc] at hle
      rw [if_pos hlong]
      simp only [reduceCtorEq, false_iff, not_and]
      intro hlt
      omega
    · rw [if_neg hlong, ← hassoc]
      exact ih (Nat.not_le.mp hlong)

/-- The candidate is the root with the names of the request. -/
theorem buildCandidate_eq_ok {c : Bytes} {d : ℕ} (hreq : words slash req = cs.map (·.text)) :
    brixBuildCandidate (pathText root) req opts = .ok (c, d) ↔
      (pathText (root ++ cs)).length < posixPathMax ∧ (cs = [] → opts.allowRoot = true) ∧
        c = pathText (root ++ cs) ∧ d = cs.length := by
  rw [brixBuildCandidate, if_neg (pathText_ne_nil root), initRoot_pathText, hreq, length_map]
  have hle := length_pathText_le root cs
  by_cases hlong : posixPathMax ≤ (pathText root).length
  · rw [if_pos hlong]
    simp only [reduceCtorEq, false_iff, not_and]
    intro hlt
    omega
  · rw [if_neg hlong]
    cases cs with
    | nil =>
      rw [append_nil]
      cases opts.allowRoot <;> simp [Nat.not_le.mp hlong, eq_comm]
    | cons x cs =>
      have hlen : (x :: cs).length ≠ 0 := by simp
      simp only [hlen, if_false]
      have happend : brixCandidateAppendReq (pathText root) ((x :: cs).map (·.text)) = .ok c ↔ _ :=
        appendReq_eq_ok (Nat.not_le.mp hlong)
      cases hres : brixCandidateAppendReq (pathText root) ((x :: cs).map (·.text)) with
      | error e =>
        rw [hres] at happend
        simp only [reduceCtorEq, false_iff, not_and] at happend ⊢
        exact fun hlt _ hc => (happend hlt hc).elim
      | ok c' =>
        rw [hres] at happend
        simp only [Except.ok.injEq, Prod.mk.injEq] at happend ⊢
        rw [happend]
        constructor
        · rintro ⟨⟨hlt, hc⟩, hd⟩
          exact ⟨hlt, nofun, hc, hd.symm⟩
        · rintro ⟨hlt, -, hc, hd⟩
          exact ⟨⟨hlt, hc⟩, hd.symm⟩

/-! ## The end of every route -/

theorem finishResolved_eq_ok (h : brixFinishResolved fs ctx t opts = .ok res) :
    res.resolved = t ∧ brixPathWithinRoot ctx.root t = true ∧ t.length < ctx.resolvsz := by
  rw [brixFinishResolved] at h
  split at h
  · cases h
  · next hwithin =>
    simp only at h
    split at h
    · cases h
    · split at h
      · cases h
      · rw [brixCopyCstr] at h
        split at h
        · cases h
        · next resolved hresolved =>
          cases h
          split at hresolved
          · cases hresolved
          · split at hresolved
            · cases hresolved
            · next hfits => exact ⟨(Except.ok.inj hresolved).symm, by simpa using hwithin, by omega⟩

theorem finishResolved_missing (hopts : opts.allowMissingTail = true ∨ opts.allowMissingParents = true)
    (hdir : opts.requireDirectory = false) (hwithin : brixPathWithinRoot ctx.root t = true)
    (hfits : t.length < ctx.resolvsz) :
    ∃ res, brixFinishResolved fs ctx t opts = .ok res ∧ res.resolved = t := by
  have hcopy : brixCopyCstr ctx.resolvsz t = .ok t := by
    rw [brixCopyCstr, if_neg (by omega), if_neg (by omega)]
  rw [brixFinishResolved, hwithin]
  simp only [Bool.true_eq_false, if_false, hdir, hcopy]
  cases htype : brixStatType fs t with
  | none =>
    simp only [Option.orElse_none, if_pos hopts]
    exact ⟨_, rfl, rfl⟩
  | some type =>
    simp only [Option.orElse_some]
    exact ⟨_, rfl, rfl⟩

/-! ## A missing tail -/

theorem missingTail_concat (hlen : (pathText (p ++ [x])).length < posixPathMax) :
    brixResolveMissingTail fs ctx (pathText (p ++ [x])) =
      match fs.realpath (pathText p) with
      | .error .enoent => .error .notFound
      | .error _ => .error .error
      | .ok canon =>
        if brixPathWithinRoot ctx.root canon = false then .error .invalid
        else
          let rebuilt := if canon = [slash] then slash :: x.text else canon ++ slash :: x.text
          if posixPathMax ≤ rebuilt.length then .error .tooLong
          else
            brixFinishResolved fs ctx rebuilt
              { PathOpts.zero with allowMissingTail := true, isWriteOperation := true } := by
  have hbase : (pathText (p ++ [x])).drop ((pathFlat p).length + 1) = x.text := by
    rw [pathText_concat, ← drop_drop, drop_left]
    rfl
  unfold brixResolveMissingTail
  rw [if_neg (Nat.not_le.mpr hlen), beforeLast_pathText]
  dsimp only
  rw [hbase, ← pathText_eq p]
  exact if_neg x.ne_nil

theorem rebuilt_eq (q : List FsName) (x : FsName) :
    (if pathText q = [slash] then slash :: x.text else pathText q ++ slash :: x.text) =
      pathText (q ++ [x]) := by
  rw [pathText_concat]
  by_cases hq : q = []
  · subst hq
    rfl
  · have hne : pathText q ≠ [slash] := fun h => hq (pathText_injective h)
    rw [if_neg hne, pathText_of_ne_nil hq]

theorem missingTail_stop (h : StopsAt fs a x q)
    (hlen : (pathText (a ++ [x])).length < posixPathMax) :
    brixResolveMissingTail fs ctx (pathText (a ++ [x])) =
      if posixPathMax ≤ (pathText q).length then .error .error
      else if brixPathWithinRoot ctx.root (pathText q) = false then .error .invalid
      else if posixPathMax ≤ (pathText (q ++ [x])).length then .error .tooLong
      else
        brixFinishResolved fs ctx (pathText (q ++ [x]))
          { PathOpts.zero with allowMissingTail := true, isWriteOperation := true } := by
  rw [missingTail_concat hlen, realpath_of_lookup h.ok]
  by_cases hlong : posixPathMax ≤ (pathText q).length
  · rw [if_pos hlong, if_pos hlong]
  · rw [if_neg hlong, if_neg hlong]
    simp only [rebuilt_eq]

theorem missingTail_above {y : FsName} (h : StopsAt fs a x q)
    (hlen : (pathText (a ++ x :: post ++ [y])).length < posixPathMax) :
    brixResolveMissingTail fs ctx (pathText (a ++ x :: post ++ [y])) = .error .notFound := by
  rw [missingTail_concat hlen, realpath_eq_enoent.mpr (h.longer post)]

/-! ## Missing parents -/

theorem walk_of_ok (h : fs.realpath (pathText p) = .ok t) :
    brixWalkToExistingAncestor fs (pathText p) = .ok (pathText p, t) := by
  rw [brixWalkToExistingAncestor, h]

theorem walk_concat (h : fs.lookup (pathText (p ++ [x])) = .error .enoent) :
    brixWalkToExistingAncestor fs (pathText (p ++ [x])) =
      brixWalkToExistingAncestor fs (pathText p) := by
  rw [brixWalkToExistingAncestor, realpath_eq_enoent.mpr h]
  simp only
  have hroot : fs.realpath [slash] = .ok [slash] :=
    realpath_eq_ok.mpr ⟨[], lookup_root fs, by decide, rfl⟩
  split
  · next hnone =>
    rw [beforeLast_pathText] at hnone
    cases hnone
  · next d hd =>
    rw [beforeLast_pathText] at hd
    cases hd
    by_cases hp : p = []
    · subst hp
      have hwalk : brixWalkToExistingAncestor fs (pathText []) = .ok (pathText [], [slash]) :=
        walk_of_ok hroot
      rw [hwalk, pathFlat_nil]
      simp only [true_or, if_true, hroot]
      rfl
    · have hflat : ¬(pathFlat p = [] ∨ pathFlat p = [slash]) := by
        rintro (hnil | hone)
        · exact hp (pathFlat_eq_nil.mp hnil)
        · rw [← pathText_of_ne_nil hp] at hone
          exact hp (pathText_injective hone)
      rw [if_neg hflat, pathText_of_ne_nil hp]

theorem walk_stop (h : StopsAt fs a x q) (hlen : (pathText q).length < posixPathMax) :
    brixWalkToExistingAncestor fs (pathText (a ++ x :: post)) = .ok (pathText a, pathText q) := by
  induction post using reverseRecOn with
  | nil =>
    rw [walk_concat h.enoent]
    exact walk_of_ok (realpath_eq_ok.mpr ⟨q, h.ok, hlen, rfl⟩)
  | append_singleton post y ih =>
    have hassoc : a ++ x :: (post ++ [y]) = a ++ x :: post ++ [y] := by simp
    have hno := h.longer (post ++ [y])
    rw [hassoc] at hno ⊢
    rw [walk_concat hno, ih]

theorem walk_stop_long (h : StopsAt fs a x q) (hlen : posixPathMax ≤ (pathText q).length) :
    brixWalkToExistingAncestor fs (pathText (a ++ x :: post)) = .error .error := by
  induction post using reverseRecOn with
  | nil =>
    rw [walk_concat h.enoent, brixWalkToExistingAncestor, realpath_of_lookup h.ok, if_pos hlen]
  | append_singleton post y ih =>
    have hassoc : a ++ x :: (post ++ [y]) = a ++ x :: post ++ [y] := by simp
    have hno := h.longer (post ++ [y])
    rw [hassoc] at hno ⊢
    rw [walk_concat hno, ih]

/-- What is put together of the part that is there and the rest: with a slash too many, where a
part that is not `/` resolves to `/`. -/
def rebuiltText (a q rest : List FsName) : Bytes :=
  if q = [] ∧ a ≠ [] then slash :: pathFlat rest else pathText (q ++ rest)

/-- Where a walk stops, the rest of the path is put behind what it came to. -/
theorem missingParents_stop (h : StopsAt fs a x q)
    (hlen : (pathText (a ++ x :: post)).length < posixPathMax) :
    brixResolveMissingParents fs ctx (pathText (a ++ x :: post)) =
      if posixPathMax ≤ (pathText q).length then .error .error
      else if brixPathWithinRoot ctx.root (pathText q) = false then .error .invalid
      else if posixPathMax ≤ (rebuiltText a q (x :: post)).length then .error .tooLong
      else
        brixFinishResolved fs ctx (rebuiltText a q (x :: post))
          { PathOpts.zero with allowMissingParents := true } := by
  rw [brixResolveMissingParents, if_neg (Nat.not_le.mpr hlen)]
  by_cases hlong : posixPathMax ≤ (pathText q).length
  · rw [walk_stop_long h hlong, if_pos hlong]
  · rw [walk_stop h (Nat.not_le.mp hlong), if_neg hlong]
    have hrebuilt : (if pathText a = [slash] then
        if pathText q = [slash] then slash :: (pathText (a ++ x :: post)).drop 1
        else pathText q ++ slash :: (pathText (a ++ x :: post)).drop 1
        else pathText q ++ (pathText (a ++ x :: post)).drop (pathText a).length) =
        rebuiltText a q (x :: post) := by
      have hwhole : pathText (a ++ x :: post) = pathFlat a ++ pathFlat (x :: post) := by
        rw [pathText_of_ne_nil (by simp), pathFlat_append]
      rw [hwhole, rebuiltText]
      by_cases ha : a = []
      · -- the walk up has reached the root, and that is where it is
        subst ha
        have hq : q = [] := by
          have hok := h.ok
          rw [lookup_root] at hok
          exact (Except.ok.inj hok).symm
        subst hq
        rfl
      · have hslash : pathText a ≠ [slash] := fun heq => ha (pathText_injective heq)
        rw [if_neg hslash, pathText_of_ne_nil ha, drop_left]
        by_cases hq : q = []
        · subst hq
          rw [if_pos ⟨rfl, ha⟩]
          rfl
        · rw [if_neg (by simp [hq]), pathText_of_ne_nil hq, pathText_of_ne_nil (by simp),
            pathFlat_append]
    simp only [hrebuilt]

/-! ## Confinement -/

theorem confined_of_solid (h : FileTree.Solid fs.tree p) (hroot : root <+: p) :
    Confined fs root (pathText p) :=
  ⟨p, rfl, hroot, fun _ _ _ hq => (h.above hq).not_isLink⟩

/-- A confined text opens as itself. -/
theorem Confined.opens (h : Confined fs root t) (hroot : FileTree.Solid fs.tree root)
    (hopen : fs.lookup t = .ok q) : t = pathText q := by
  obtain ⟨p, rfl, hbelow, hlinks⟩ := h
  have hsolid : ∀ r, root ++ r <+: p → FileTree.Solid fs.tree (root ++ r) := by
    intro r
    induction r using reverseRecOn with
    | nil =>
      intro _
      rwa [append_nil]
    | append_singleton r y ih =>
      intro hr
      have hassoc : root ++ (r ++ [y]) = root ++ r ++ [y] := by simp
      rw [hassoc] at hr ⊢
      have hpfx : root ++ r <+: p := (prefix_append _ _).trans hr
      obtain ⟨rest, hrest⟩ := hr
      have hnolink : ¬FileTree.IsLink fs.tree (root ++ r ++ [y]) := by
        refine hlinks _ (by simp) ?_ ⟨rest, hrest⟩
        intro heq
        have hlen := congrArg length heq
        simp at hlen
      refine ⟨fun habsent => ?_, fun absolute steps hlink => hnolink ⟨absolute, steps, hlink⟩⟩
      -- a name that is missing cannot be walked
      have hthere := lookup_of_solid (ih hpfx)
      have hup : fs.lookup (pathText (root ++ r ++ [y])) = .error .enoent ∨
          fs.lookup (pathText (root ++ r ++ [y])) = .error .enotdir := by
        rw [lookup_pathText] at hthere ⊢
        obtain ⟨m, -, hmore⟩ := FileTree.resolve_append hthere
        rw [FileTree.get_append] at habsent
        rw [map_append, hmore, map_singleton, FileTree.resolve_cons]
        cases hdir : (fs.tree.get (root ++ r)).isDir with
        | false => exact .inr (by simp)
        | true =>
          have hchild : (fs.tree.get (root ++ r)).child y = .absent := habsent
          exact .inl (by simp [hchild])
      have hwhole : ∀ e, fs.lookup (pathText (root ++ r ++ [y])) = .error e →
          fs.lookup (pathText p) = .error e := by
        intro e he
        rw [lookup_pathText] at he ⊢
        rw [← hrest, map_append]
        exact FileTree.resolve_append_error he _
      obtain he | he := hup
      · rw [hwhole _ he] at hopen
        cases hopen
      · rw [hwhole _ he] at hopen
        cases hopen
  obtain ⟨r, rfl⟩ := hbelow
  have hself := lookup_of_solid (hsolid r (prefix_rfl))
  rw [hself] at hopen
  rw [Except.ok.inj hopen]

theorem slash_pathFlat_ne (h : post ≠ []) : slash :: pathFlat post ≠ pathText p := by
  intro heq
  have hwords := congrArg (words slash) heq
  rw [words_sep_cons, words_pathFlat, words_pathText] at hwords
  have hp : post = p := map_text_injective hwords
  rw [← hp, pathText_of_ne_nil h] at heq
  have hlen := congrArg length heq
  simp at hlen

theorem confined_rebuilt (h : StopsAt fs a x q) (hroot : root <+: q)
    (hlink : ¬FileTree.IsLink fs.tree (q ++ [x])) (hslash : ¬(q = [] ∧ a ≠ [])) :
    Confined fs root (rebuiltText a q (x :: post)) := by
  have habsent := h.absent_or_isLink.resolve_right hlink
  rw [rebuiltText, if_neg hslash]
  refine ⟨q ++ x :: post, rfl, hroot.trans (prefix_append _ _), fun p _ _ hp => ?_⟩
  exact not_isLink_of_absent (lookup_solid h.ok) habsent hp

theorem not_confined_rebuilt (hroot : root <+: q)
    (hbad : FileTree.IsLink fs.tree (q ++ [x]) ∨ (q = [] ∧ a ≠ [])) :
    ¬Confined fs root (rebuiltText a q (x :: post)) := by
  rintro ⟨p, hp, -, hlinks⟩
  rw [rebuiltText] at hp
  split at hp
  · exact slash_pathFlat_ne (by simp) hp
  · next hslash =>
    obtain rfl := pathText_injective hp
    have hlink := hbad.resolve_right hslash
    refine hlinks (q ++ [x]) (hroot.trans (prefix_append _ _)) ?_ ⟨post, by simp⟩ hlink
    intro heq
    have hlen := hroot.length_le
    rw [← heq, length_append, length_singleton] at hlen
    omega

theorem stop_in_request (h : StopsAt fs a x q) (hroot : root <+: q)
    (heq : root ++ cs = a ++ x :: post) : ∃ ds, a = root ++ ds ∧ cs = ds ++ x :: post := by
  obtain ⟨ds, ha, hcs⟩ | ⟨up, hup, hrest⟩ := append_eq_append_iff.mp heq
  · exact ⟨ds, ha, hcs⟩
  · -- the root would be there, and so the walk would not have stopped above it
    cases up with
    | nil =>
      rw [append_nil] at hup
      exact ⟨[], by rw [hup, append_nil], by rw [nil_append]; exact hrest.symm⟩
    | cons y up =>
      have hsolid : FileTree.Solid fs.tree a :=
        (lookup_solid h.ok).above (((prefix_append a (y :: up)).trans
          (by rw [← hup])).trans hroot)
      have hq : a = q := by
        have hok := h.ok
        rw [lookup_of_solid hsolid] at hok
        exact Except.ok.inj hok
      have hlen := hroot.length_le
      rw [hup, ← hq, length_append, length_cons] at hlen
      omega

/-- A text fits the buffers. -/
def FitsBoth (size : ℕ) (t : Bytes) : Prop := t.length < posixPathMax ∧ t.length < size

/-- **A link is taken for a free name**: the request stops at a name that is a link to nothing,
where a missing name is allowed; or what is there of it resolves to `/` by a link. -/
def TakesLink (fs : FileSystem) (root : List FsName) (req : Bytes) (opts : PathOpts)
    (size : ℕ) : Prop :=
  ∃ (ds post q : List FsName) (x : FsName),
    brixValidateComponents req = .ok () ∧ words slash req = (ds ++ x :: post).map (·.text) ∧
    (pathText (root ++ (ds ++ x :: post))).length < posixPathMax ∧
    StopsAt fs (root ++ ds) x q ∧ root <+: q ∧
    ((opts.allowMissingParents = true ∧
        FitsBoth size (rebuiltText (root ++ ds) q (x :: post)) ∧
        (FileTree.IsLink fs.tree (q ++ [x]) ∨ (q = [] ∧ root ++ ds ≠ []))) ∨
      (opts.allowMissingParents = false ∧ opts.allowMissingTail = true ∧
        brixHasTrailingSlash req = false ∧ post = [] ∧ FitsBoth size (pathText (q ++ [x])) ∧
        FileTree.IsLink fs.tree (q ++ [x])))

/-- What the resolver returns, by how far the walk comes -/
theorem resolveCstr_eq_ok (h : brixPathResolveCstr fs (pathText root) req opts size = .ok res) :
    ∃ cs : List FsName, brixValidateComponents req = .ok () ∧ words slash req = cs.map (·.text) ∧
      (pathText (root ++ cs)).length < posixPathMax ∧
      ¬(opts.allowMissingTail = true ∧ opts.allowMissingParents = false ∧
        brixHasTrailingSlash req = true) ∧
      match fs.realpath (pathText (root ++ cs)) with
      | .ok canonical =>
        brixFinishResolved fs ⟨pathText root, size, cs.length⟩ canonical opts = .ok res
      | .error .enoent =>
        (opts.allowMissingParents = true ∧ brixResolveMissingParents fs
            ⟨pathText root, size, cs.length⟩ (pathText (root ++ cs)) = .ok res) ∨
          (opts.allowMissingParents = false ∧ opts.allowMissingTail = true ∧
            brixResolveMissingTail fs ⟨pathText root, size, cs.length⟩ (pathText (root ++ cs)) =
              .ok res)
      | .error _ => False := by
  rw [brixPathResolveCstr] at h
  split at h
  · cases h
  next hvalid =>
  have hwords : ∃ cs : List FsName, words slash req = cs.map (·.text) := by
    refine exists_names (fun w hw => of_mem_words hw) fun w hw => ?_
    rw [brixValidateComponents] at hvalid
    split at hvalid
    · cases hvalid
    · split at hvalid
      · cases hvalid
      · split at hvalid
        · cases hvalid
        · next hall =>
          by_contra hforbidden
          exact hall (any_eq_true.mpr ⟨w, hw, by simpa using hforbidden⟩)
  obtain ⟨cs, hcs⟩ := hwords
  split at h
  · cases h
  next htrailing =>
  split at h
  · cases h
  next candidate depth hbuild =>
  obtain ⟨hlen, -, rfl, rfl⟩ := (buildCandidate_eq_ok hcs).mp hbuild
  refine ⟨cs, hvalid, hcs, hlen, ?_, ?_⟩
  · rintro ⟨htail, hparents, hslash⟩
    exact htrailing (by simp [htail, hparents, hslash])
  · cases hreal : fs.realpath (pathText (root ++ cs)) with
    | ok canonical =>
      rw [hreal] at h
      exact h
    | error e =>
      rw [hreal] at h
      cases e with
      | enoent =>
        simp only at h
        split at h
        · next hparents => exact .inl ⟨hparents, h⟩
        · next hparents =>
          split at h
          · next htail => exact .inr ⟨by simpa using hparents, htail, h⟩
          · cases h
      | _ => cases h

/-- An answer is what is there, or what is put together where the request stops. -/
theorem resolveCstr_stops (h : brixPathResolveCstr fs (pathText root) req opts size = .ok res) :
    (∃ q, FileTree.Solid fs.tree q ∧ root <+: q ∧ res.resolved = pathText q) ∨
    ∃ (ds post q : List FsName) (x : FsName),
      brixValidateComponents req = .ok () ∧ words slash req = (ds ++ x :: post).map (·.text) ∧
      (pathText (root ++ (ds ++ x :: post))).length < posixPathMax ∧
      StopsAt fs (root ++ ds) x q ∧ root <+: q ∧
      ((opts.allowMissingParents = true ∧
          FitsBoth size (rebuiltText (root ++ ds) q (x :: post)) ∧
          res.resolved = rebuiltText (root ++ ds) q (x :: post)) ∨
        (opts.allowMissingParents = false ∧ opts.allowMissingTail = true ∧
          brixHasTrailingSlash req = false ∧ post = [] ∧ FitsBoth size (pathText (q ++ [x])) ∧
          res.resolved = pathText (q ++ [x]))) := by
  obtain ⟨cs, hvalid, hcs, hlen, htrailing, hroute⟩ := resolveCstr_eq_ok h
  cases hreal : fs.realpath (pathText (root ++ cs)) with
  | ok canonical =>
    simp only [hreal] at hroute
    obtain ⟨hres, hwithin, -⟩ := finishResolved_eq_ok hroute
    obtain ⟨q, hq, -, rfl⟩ := realpath_eq_ok.mp hreal
    exact .inl ⟨q, lookup_solid hq, withinRoot_iff.mp hwithin, hres⟩
  | error e =>
    cases e with
    | enoent =>
      simp only [hreal] at hroute
      obtain ⟨a, x, post, q, heq, hstop⟩ := exists_stopsAt (realpath_eq_enoent.mp hreal)
      have hlen' := hlen
      rw [heq] at hroute hlen'
      obtain ⟨hparents, hres⟩ | ⟨hparents, htail, hres⟩ := hroute
      · rw [missingParents_stop hstop hlen'] at hres
        split at hres
        · cases hres
        split at hres
        · cases hres
        next hwithin =>
        split at hres
        · cases hres
        next hfits =>
        obtain ⟨htext, -, hsize⟩ := finishResolved_eq_ok hres
        have hroot : root <+: q := withinRoot_iff.mp (by simpa using hwithin)
        obtain ⟨ds, rfl, rfl⟩ := stop_in_request hstop hroot heq
        exact .inr ⟨ds, post, q, x, hvalid, hcs, hlen, hstop, hroot,
          .inl ⟨hparents, ⟨Nat.not_le.mp hfits, hsize⟩, htext⟩⟩
      · cases post using reverseRecOn with
        | append_singleton post y =>
          -- the walk stops above the last name
          have hassoc : a ++ x :: (post ++ [y]) = a ++ x :: post ++ [y] := by simp
          rw [hassoc] at hres hlen'
          rw [missingTail_above hstop hlen'] at hres
          cases hres
        | nil =>
          rw [missingTail_stop hstop hlen'] at hres
          split at hres
          · cases hres
          split at hres
          · cases hres
          next hwithin =>
          split at hres
          · cases hres
          next hfits =>
          obtain ⟨htext, -, hsize⟩ := finishResolved_eq_ok hres
          have hroot : root <+: q := withinRoot_iff.mp (by simpa using hwithin)
          obtain ⟨ds, rfl, rfl⟩ := stop_in_request hstop hroot heq
          have hslash : brixHasTrailingSlash req = false :=
            eq_false_of_ne_true fun hslash => htrailing ⟨htail, hparents, hslash⟩
          exact .inr ⟨ds, [], q, x, hvalid, hcs, hlen, hstop, hroot,
            .inr ⟨hparents, htail, hslash, rfl, ⟨Nat.not_le.mp hfits, hsize⟩, htext⟩⟩
    | _ => simp only [hreal] at hroute

theorem solid_of_resolveCstr (h : brixPathResolveCstr fs (pathText root) req opts size = .ok res) :
    FileTree.Solid fs.tree root := by
  obtain ⟨q, hq, hroot, -⟩ | ⟨ds, post, q, x, -, -, -, hstop, hroot, -⟩ := resolveCstr_stops h
  · exact hq.above hroot
  · exact (lookup_solid hstop.ok).above hroot

theorem confined_of_not_takesLink (hno : ¬TakesLink fs root req opts size)
    (h : brixPathResolveCstr fs (pathText root) req opts size = .ok res) :
    Confined fs root res.resolved := by
  obtain ⟨q, hq, hroot, hres⟩ | ⟨ds, post, q, x, hvalid, hcs, hlen, hstop, hroot, hway⟩ :=
    resolveCstr_stops h
  · rw [hres]
    exact confined_of_solid hq hroot
  · obtain ⟨hparents, hfits, hres⟩ | ⟨hparents, htail, hslash, rfl, hfits, hres⟩ := hway
    · obtain ⟨hlink, hslash⟩ := not_or.mp fun hbad =>
        hno ⟨ds, post, q, x, hvalid, hcs, hlen, hstop, hroot, .inl ⟨hparents, hfits, hbad⟩⟩
      rw [hres]
      exact confined_rebuilt hstop hroot hlink hslash
    · have hlink : ¬FileTree.IsLink fs.tree (q ++ [x]) := fun hbad =>
        hno ⟨ds, [], q, x, hvalid, hcs, hlen, hstop, hroot,
          .inr ⟨hparents, htail, hslash, rfl, hfits, hbad⟩⟩
      have habsent := hstop.absent_or_isLink.resolve_right hlink
      rw [hres]
      refine ⟨q ++ [x], rfl, hroot.trans (prefix_append _ _), fun p _ _ hp => ?_⟩
      exact not_isLink_of_absent (lookup_solid hstop.ok) habsent hp

theorem resolveCstr_of_stop (hvalid : brixValidateComponents req = .ok ())
    (hcs : words slash req = cs.map (·.text)) (hne : cs ≠ [])
    (hlen : (pathText (root ++ cs)).length < posixPathMax)
    (hreal : fs.lookup (pathText (root ++ cs)) = .error .enoent) :
    brixPathResolveCstr fs (pathText root) req opts size =
      if opts.allowMissingTail && !opts.allowMissingParents && brixHasTrailingSlash req then
        .error .invalid
      else if opts.allowMissingParents then
        brixResolveMissingParents fs ⟨pathText root, size, cs.length⟩ (pathText (root ++ cs))
      else if opts.allowMissingTail then
        brixResolveMissingTail fs ⟨pathText root, size, cs.length⟩ (pathText (root ++ cs))
      else .error .notFound := by
  have hbuild : brixBuildCandidate (pathText root) req opts =
      .ok (pathText (root ++ cs), cs.length) :=
    (buildCandidate_eq_ok hcs).mpr ⟨hlen, fun h => absurd h hne, rfl, rfl⟩
  rw [brixPathResolveCstr, hvalid, hbuild]
  simp only [realpath_eq_enoent.mpr hreal]

/-- A link that is taken for a free name is returned unconfined. -/
theorem TakesLink.not_confined (h : TakesLink fs root req opts size) :
    ∃ res, brixPathResolveCstr fs (pathText root) req opts size = .ok res ∧
      ¬Confined fs root res.resolved := by
  obtain ⟨ds, post, q, x, hvalid, hcs, hlen, hstop, hroot, hway⟩ := h
  have hassoc : root ++ (ds ++ x :: post) = root ++ ds ++ x :: post := by simp
  have hno := hstop.longer post
  rw [← hassoc] at hno
  rw [resolveCstr_of_stop hvalid hcs (by simp) hlen hno]
  rw [hassoc] at hlen ⊢
  have hwithin : ∀ rest, brixPathWithinRoot (pathText root) (pathText (q ++ rest)) = true :=
    fun rest => withinRoot_iff.mpr (hroot.trans (prefix_append _ _))
  have hwithinq : brixPathWithinRoot (pathText root) (pathText q) = true := withinRoot_iff.mpr hroot
  obtain ⟨hparents, ⟨hfits, hsize⟩, hbad⟩ | ⟨hparents, htail, hslash, rfl, ⟨hfits, hsize⟩, hlink⟩ :=
    hway
  · have hwithinText : brixPathWithinRoot (pathText root)
        (rebuiltText (root ++ ds) q (x :: post)) = true := by
      rw [rebuiltText]
      split
      · next hslash =>
        have hnil : root = [] := prefix_nil.mp (hslash.1 ▸ hroot)
        subst hnil
        rfl
      · exact hwithin _
    have hqlen : (pathText q).length < posixPathMax := by
      rw [rebuiltText] at hfits
      split at hfits
      · next hslash =>
        rw [hslash.1]
        decide
      · exact Nat.lt_of_le_of_lt (length_pathText_le q _) hfits
    have hanswer : ∃ res, brixFinishResolved fs ⟨pathText root, size, (ds ++ x :: post).length⟩
        (rebuiltText (root ++ ds) q (x :: post))
        { PathOpts.zero with allowMissingParents := true } = .ok res ∧
          res.resolved = rebuiltText (root ++ ds) q (x :: post) :=
      finishResolved_missing (.inr rfl) rfl hwithinText hsize
    obtain ⟨res, hres, htext⟩ := hanswer
    refine ⟨res, ?_, htext ▸ not_confined_rebuilt hroot hbad⟩
    rw [if_neg (by simp [hparents]), if_pos hparents, missingParents_stop hstop hlen,
      if_neg (Nat.not_le.mpr hqlen), if_neg (by simp [hwithinq]), if_neg (Nat.not_le.mpr hfits), hres]
  · have hqlen : (pathText q).length < posixPathMax :=
      Nat.lt_of_le_of_lt (length_pathText_le q _) hfits
    have hanswer : ∃ res, brixFinishResolved fs ⟨pathText root, size, (ds ++ [x]).length⟩
        (pathText (q ++ [x]))
        { PathOpts.zero with allowMissingTail := true, isWriteOperation := true } = .ok res ∧
          res.resolved = pathText (q ++ [x]) :=
      finishResolved_missing (.inl rfl) rfl (hwithin [x]) hsize
    obtain ⟨res, hres, htext⟩ := hanswer
    refine ⟨res, ?_, ?_⟩
    · rw [if_neg (by simp [hslash]), if_neg (by simp [hparents]), if_pos htail,
        missingTail_stop hstop hlen, if_neg (Nat.not_le.mpr hqlen), if_neg (by simp [hwithinq]),
        if_neg (Nat.not_le.mpr hfits), hres]
    · rw [htext]
      rintro ⟨p, hp, -, hlinks⟩
      obtain rfl := pathText_injective hp
      refine hlinks (q ++ [x]) (hroot.trans (prefix_append _ _)) ?_ prefix_rfl hlink
      intro heq
      have hle := hroot.length_le
      rw [← heq, length_append, length_singleton] at hle
      omega

/-! ## The text of the root -/

theorem exists_pathFlat {root t : Bytes} (h : pathFlat p = root ++ slash :: t) :
    ∃ r, root = pathFlat r ∧ r <+: p := by
  induction p generalizing root with
  | nil => simp at h
  | cons x p ih =>
    rw [pathFlat_cons] at h
    cases root with
    | nil => exact ⟨[], rfl, List.nil_prefix⟩
    | cons c root =>
      rw [cons_append] at h
      obtain ⟨rfl, hrest⟩ := cons_eq_cons.mp h
      obtain ⟨more, rfl, hmore⟩ | ⟨more, hx, hmore⟩ := append_eq_append_iff.mp hrest
      · obtain ⟨r, rfl, hr⟩ := ih hmore
        exact ⟨x :: r, rfl, cons_prefix_cons.mpr ⟨rfl, hr⟩⟩
      · cases more with
        | nil => exact ⟨[x], by simp [hx, pathFlat], ⟨p, rfl⟩⟩
        | cons c' more =>
          -- the slash would be one of the name
          obtain ⟨rfl, -⟩ := cons_eq_cons.mp hmore
          exact absurd (by simp [hx]) x.no_slash

theorem exists_root {root : Bytes} (hne : root ≠ [])
    (h : brixPathWithinRoot root (pathText p) = true) : ∃ r, root = pathText r := by
  rw [brixPathWithinRoot] at h
  split at h
  · next hroot => exact ⟨[], hroot⟩
  · simp only [Bool.and_eq_true, Bool.or_eq_true, decide_eq_true_eq] at h
    obtain ⟨htake, hnext⟩ := h
    have hsplit := take_append_drop root.length (pathText p)
    rw [htake] at hsplit
    rw [← head?_drop] at hnext
    cases hrest : (pathText p).drop root.length with
    | nil =>
      rw [hrest, append_nil] at hsplit
      exact ⟨p, hsplit⟩
    | cons c t =>
      have hc : c = slash := by simpa [hrest] using hnext
      subst hc
      rw [hrest] at hsplit
      have hp : p ≠ [] := by
        rintro rfl
        have hlen := congrArg length hsplit
        have hpos := length_pos_iff.mpr hne
        rw [length_append, length_cons] at hlen
        have hone : (pathText []).length = 1 := rfl
        omega
      rw [pathText_of_ne_nil hp] at hsplit
      obtain ⟨r, rfl, -⟩ := exists_pathFlat hsplit.symm
      exact ⟨r, (pathText_of_ne_nil fun hr => hne (pathFlat_eq_nil.mpr hr)).symm⟩

theorem realpath_canonical {text canon : Bytes} (h : fs.realpath text = .ok canon) :
    ∃ q, canon = pathText q := by
  rw [FileSystem.realpath] at h
  split at h
  · cases h
  · next q hq =>
    split at h
    · cases h
    · exact ⟨q, (Except.ok.inj h).symm⟩

theorem walk_canonical {text ancestor canon : Bytes}
    (h : brixWalkToExistingAncestor fs text = .ok (ancestor, canon)) : ∃ q, canon = pathText q := by
  fun_induction brixWalkToExistingAncestor fs text with
  | case1 text canon' hreal =>
    cases h
    exact realpath_canonical hreal
  | case3 text _ d _ _ canon' hroot =>
    cases h
    exact realpath_canonical hroot
  | case5 text _ d _ _ ih => exact ih h
  | _ => cases h

theorem exists_root_of_ok {root : Bytes}
    (h : brixPathResolveCstr fs root req opts size = .ok res) : ∃ r, root = pathText r := by
  rw [brixPathResolveCstr] at h
  split at h
  · cases h
  split at h
  · cases h
  split at h
  · cases h
  next candidate depth hbuild =>
  have hne : root ≠ [] := by
    rintro rfl
    rw [brixBuildCandidate, if_pos rfl] at hbuild
    cases hbuild
  split at h
  · next canonical hreal =>
    obtain ⟨q, rfl⟩ := realpath_canonical hreal
    exact exists_root hne (finishResolved_eq_ok h).2.1
  · split at h
    · -- missing parents
      rw [brixResolveMissingParents] at h
      split at h
      · cases h
      split at h
      · cases h
      next ancestor canon hwalk =>
      split at h
      · cases h
      next hwithin =>
      obtain ⟨q, rfl⟩ := walk_canonical hwalk
      exact exists_root hne (by simpa using hwithin)
    · split at h
      · -- a missing tail
        rw [brixResolveMissingTail] at h
        split at h
        · cases h
        split at h
        · cases h
        simp only at h
        split at h
        · cases h
        split at h
        · cases h
        · cases h
        next canon hreal =>
        split at h
        · cases h
        next hwithin =>
        obtain ⟨q, rfl⟩ := realpath_canonical hreal
        exact exists_root hne (by simpa using hwithin)
      · cases h
  · cases h

/-- **Every answer is confined** just where no link is taken for a free name. -/
theorem resolveCstr_confined_iff (fs : FileSystem) (root : Bytes) (req : Bytes)
    (opts : PathOpts) (size : ℕ) :
    (∀ res, brixPathResolveCstr fs root req opts size = .ok res →
      ∃ r, root = pathText r ∧ Confined fs r res.resolved) ↔
    ∀ r, root = pathText r → ¬TakesLink fs r req opts size := by
  constructor
  · rintro hall r rfl htakes
    obtain ⟨res, hres, hnot⟩ := htakes.not_confined
    obtain ⟨r', hr', hconfined⟩ := hall res hres
    exact hnot (pathText_injective hr' ▸ hconfined)
  · intro hno res hres
    obtain ⟨r, rfl⟩ := exists_root_of_ok hres
    exact ⟨r, rfl, confined_of_not_takesLink (hno r rfl) hres⟩

def letterName (c : UInt8) (h : c ≠ slash ∧ c ≠ 46) : FsName where
  text := [c]
  ne_nil := by simp
  no_slash := by simpa using h.1.symm
  ne_dot := by simpa using h.2
  ne_dotdot := by simp

/-- `/e` with the one entry `l`, a link to `/x`, which is not there -/
def danglingFs : FileSystem where
  top x :=
    if x.text = [101] then
      .dir fun y =>
        if y.text = [108] then .leaf (.link true [.name (letterName 120 (by decide))]) else .absent
    else .absent
  maxLinks := 40
  cwd := []

/-- A link to a missing name outside the root is given for a free name within it. -/
theorem resolveCstr_dangling_link :
    ¬∀ fs root req opts size res, brixPathResolveCstr fs root req opts size = .ok res →
      ∃ r, root = pathText r ∧ Confined fs r res.resolved := by
  intro hall
  have hanswer : brixPathResolveCstr danglingFs [47, 101] [47, 108]
      { PathOpts.zero with allowMissingTail := true } 4096 =
        .ok ⟨[47, 101, 47, 108], .notFound, 1, true⟩ := by
    decide +kernel
  obtain ⟨r, hr, p, hp, -, hlinks⟩ := hall _ _ _ _ _ _ hanswer
  have hroot : [letterName 101 (by decide)] = r := pathText_injective hr
  have hname : [letterName 101 (by decide), letterName 108 (by decide)] = p := pathText_injective hp
  subst hroot hname
  exact hlinks _ ⟨[_], rfl⟩ (by simp) prefix_rfl ⟨true, _, rfl⟩

/-- **What is opened below the root is below the root**: a path that the resolver gives, no link
being taken for a free name, is opened as itself, whatever links the request went through. -/
theorem resolved_opens_below (hlink : ¬TakesLink fs root req opts size)
    (hres : brixPathResolveCstr fs (pathText root) req opts size = .ok res)
    (hopen : fs.lookup res.resolved = .ok q) : root <+: q ∧ res.resolved = pathText q := by
  have hconfined := confined_of_not_takesLink hlink hres
  have hself := hconfined.opens (solid_of_resolveCstr hres) hopen
  obtain ⟨p, hp, hbelow, -⟩ := hconfined
  exact ⟨pathText_injective (hp.symm.trans hself) ▸ hbelow, hself⟩

/-- `/e` with the directory `d`, in which is the file `f`, and `l`, a link to `d` -/
def linkedFs : FileSystem where
  top x :=
    if x.text = [101] then
      .dir fun y =>
        if y.text = [100] then .dir fun z => if z.text = [102] then .leaf .file else .absent
        else if y.text = [108] then .leaf (.link false [.name (letterName 100 (by decide))])
        else .absent
    else .absent
  maxLinks := 40
  cwd := []

/-- `/l/f` below `/e` is opened as `/e/d/f`. -/
theorem resolved_opens_below_link :
    [letterName 101 (by decide)] <+:
        [letterName 101 (by decide), letterName 100 (by decide), letterName 102 (by decide)] ∧
      [47, 101, 47, 100, 47, 102] = pathText
        [letterName 101 (by decide), letterName 100 (by decide), letterName 102 (by decide)] :=
  have hres : brixPathResolveCstr linkedFs (pathText [letterName 101 (by decide)])
      [47, 108, 47, 102] PathOpts.zero 4096 = .ok ⟨[47, 101, 47, 100, 47, 102], .reg, 2, true⟩ := by
    decide +kernel
  resolved_opens_below (by simp [TakesLink, PathOpts.zero]) hres (by decide +kernel)

end BrixCache
