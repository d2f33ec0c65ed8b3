import BrixCache.Auth.Caveats

/-!
# The authority of a token

What the scopes of a token allow, a permission and a path at a time, and how caveats
narrow it: the scopes of a macaroon all have one path, and a caveat that is read leaves
what was allowed before and is permitted by it.
-/

namespace BrixCache

open List

/-- A permission that an activity gives. -/
inductive Permission : Type where
  | read | write | modify
  deriving DecidableEq

def MacaroonActivity.has (mask : MacaroonActivity) : Permission → Bool
  | .read => mask.read
  | .write => mask.write
  | .modify => mask.modify

def TokenScope.has (s : TokenScope) : Permission → Bool
  | .read => s.read
  | .write => s.write
  | .modify => s.modify

/-- One of the scopes gives the permission on the path. -/
def ScopesAllow (scopes : List TokenScope) (perm : Permission) (p : Bytes) : Prop :=
  ∃ s ∈ scopes, s.has perm = true ∧ tokenScopePathMatches s.path p = true

/-- The scopes an activity mask grants at the root. -/
def MacaroonActivity.scopes (mask : MacaroonActivity) : List TokenScope :=
  (if mask.read then [⟨[slash], true, false, false, false⟩] else []) ++
  (if mask.write then [⟨[slash], false, true, false, false⟩] else []) ++
  if mask.modify then [⟨[slash], false, false, false, true⟩] else []

variable {scopes restriction : List TokenScope} {perm : Permission} {a b p path : Bytes}

theorem checkRead_iff : tokenCheckRead scopes p = true ↔ ScopesAllow scopes .read p := by
  simp [tokenCheckRead, ScopesAllow, TokenScope.has]

theorem checkWrite_iff (hcreate : ∀ s ∈ scopes, s.create = false) :
    tokenCheckWrite scopes p = true ↔
      ScopesAllow scopes .write p ∨ ScopesAllow scopes .modify p := by
  simp only [tokenCheckWrite, any_eq_true, Bool.and_eq_true, Bool.or_eq_true]
  constructor
  · rintro ⟨s, hs, (hw | hc) | hm, hp⟩
    · exact .inl ⟨s, hs, hw, hp⟩
    · rw [hcreate s hs] at hc
      cases hc
    · exact .inr ⟨s, hs, hm, hp⟩
  · rintro (⟨s, hs, hw, hp⟩ | ⟨s, hs, hm, hp⟩)
    · exact ⟨s, hs, .inl (.inl hw), hp⟩
    · exact ⟨s, hs, .inr hm, hp⟩

/-! ## The meet of two paths -/

/-- The deeper of two paths, if one covers the other. -/
def meetPath (a b : Bytes) : Option Bytes :=
  if tokenScopePathMatches a b then some b
  else if tokenScopePathMatches b a then some a
  else none

theorem meetPath_matches (ha : Proper a) (hb : Proper b) :
    (∃ c, meetPath a b = some c ∧ tokenScopePathMatches c p = true) ↔
      tokenScopePathMatches a p = true ∧ tokenScopePathMatches b p = true := by
  rw [meetPath]
  split
  · next hab =>
    constructor
    · rintro ⟨c, ⟨⟩, hc⟩
      exact ⟨matches_trans ha hab hc, hc⟩
    · exact fun h => ⟨b, rfl, h.2⟩
  split
  · next hba =>
    constructor
    · rintro ⟨c, ⟨⟩, hc⟩
      exact ⟨hc, matches_trans hb hba hc⟩
    · exact fun h => ⟨a, rfl, h.1⟩
  · next hab hba =>
    constructor
    · rintro ⟨c, hc, -⟩
      cases hc
    · rintro ⟨hap, hbp⟩
      exact ((matches_comparable hap hbp).elim hab hba).elim

theorem meetPath_cases {c : Bytes} (h : meetPath a b = some c) : c = a ∨ c = b := by
  rw [meetPath] at h
  split at h
  · exact .inr (Option.some.inj h).symm
  split at h
  · exact .inl (Option.some.inj h).symm
  · cases h

/-! ## Scopes of one path -/

/-- A path that a scope can carry -/
structure ScopePath (path : Bytes) : Prop where
  proper : Proper path
  short : path.length < scopePathMax

theorem scopePath_root : ScopePath [slash] := ⟨⟨by decide, .inl rfl⟩, by decide⟩

/-- The scopes of a macaroon have one path, and one entry for each permission at most. -/
structure Uniform (scopes : List TokenScope) (path : Bytes) : Prop where
  scopePath : ScopePath path
  one : ∀ s ∈ scopes, s.path = path ∧ s.create = false
  few : (scopes.flatMap TokenScope.entries).length ≤ 3

theorem Uniform.allow_iff (h : Uniform scopes path) :
    ScopesAllow scopes perm p ↔
      (∃ s ∈ scopes, s.has perm = true) ∧ tokenScopePathMatches path p = true := by
  constructor
  · rintro ⟨s, hs, hperm, hp⟩
    exact ⟨⟨s, hs, hperm⟩, by rwa [← (h.one s hs).1]⟩
  · rintro ⟨⟨s, hs, hperm⟩, hp⟩
    exact ⟨s, hs, hperm, by rwa [(h.one s hs).1]⟩

theorem rebuild_scopes (mask : MacaroonActivity) :
    (macaroonRebuildActivityScopes mask).map (tokenParseScopes · maxTokenScopes) =
      some mask.scopes := by
  obtain ⟨r, w, m⟩ := mask
  cases r <;> cases w <;> cases m <;> decide

theorem MacaroonActivity.uniform (mask : MacaroonActivity) : Uniform mask.scopes [slash] := by
  obtain ⟨r, w, m⟩ := mask
  refine ⟨scopePath_root, ?_, ?_⟩
  · cases r <;> cases w <;> cases m <;> decide
  · cases r <;> cases w <;> cases m <;> decide

theorem MacaroonActivity.allow_iff (mask : MacaroonActivity) :
    ScopesAllow mask.scopes perm p ↔ mask.has perm = true := by
  rw [mask.uniform.allow_iff]
  obtain ⟨r, w, m⟩ := mask
  cases perm <;> cases r <;> cases w <;> cases m <;>
    simp [MacaroonActivity.scopes, MacaroonActivity.has, TokenScope.has, tokenScopePathMatches]

/-! ## The text of scopes -/

theorem TokenScope.length_of_mem_entries {s : TokenScope} {e : Bytes}
    (he : e ∈ s.entries) : e.length ≤ s.path.length + 15 := by
  simp only [TokenScope.entries, mem_append] at he
  obtain ((he | he) | he) | he := he <;> split at he <;> simp [ascii] at he <;> simp [he]

theorem scopeRawFrom_isSome {raw : Bytes} {es : List Bytes}
    (hlen : ∀ e ∈ es, e.length ≤ 270) (hroom : raw.length + 271 * es.length ≤ 1000) :
    (macaroonScopeRawFrom raw es).isSome = true := by
  induction es generalizing raw with
  | nil => rfl
  | cons e es ih =>
    obtain ⟨he, hes⟩ := forall_mem_cons.mp hlen
    rw [length_cons, Nat.mul_succ] at hroom
    unfold macaroonScopeRawFrom
    simp only
    rw [if_neg]
    · refine ih hes ?_
      simp only [length_append]
      split <;> simp <;> omega
    · rw [scopeRawSize]
      split <;> omega

theorem Uniform.rebuild (claims : TokenClaims) (h : Uniform claims.scopes path) :
    ∃ scopeRaw, macaroonRebuildScopeRaw claims = some { claims with scopeRaw } := by
  have hsome : (macaroonScopeRawFrom [] (claims.scopes.flatMap TokenScope.entries)).isSome := by
    refine scopeRawFrom_isSome ?_ ?_
    · intro e he
      obtain ⟨s, hs, he⟩ := mem_flatMap.mp he
      have hlen := s.length_of_mem_entries he
      have hshort := h.scopePath.short
      rw [(h.one s hs).1] at hlen
      rw [scopePathMax] at hshort
      omega
    · have hfew := h.few
      simp only [length_nil]
      omega
  obtain ⟨scopeRaw, hraw⟩ := Option.isSome_iff_exists.mp hsome
  exact ⟨scopeRaw, by rw [macaroonRebuildScopeRaw, hraw]; rfl⟩

/-! ## Paths narrow -/

def TokenScope.moved (s : TokenScope) (path : Bytes) : TokenScope := { s with path }

/-- A scope without permissions. -/
def TokenScope.revoked (s : TokenScope) : TokenScope :=
  { s with read := false, write := false, create := false, modify := false }

@[simp]
theorem TokenScope.moved_has (s : TokenScope) : (s.moved path).has perm = s.has perm := by
  cases perm <;> rfl

@[simp]
theorem TokenScope.revoked_has (s : TokenScope) : s.revoked.has perm = false := by
  cases perm <;> rfl

theorem TokenScope.length_moved_entries (s : TokenScope) :
    (s.moved path).entries.length = s.entries.length := by
  obtain ⟨q, r, w, c, m⟩ := s
  cases r <;> cases w <;> cases c <;> cases m <;> rfl

theorem applyPathToScope_eq (s : TokenScope) (c : Bytes) :
    (macaroonApplyPathToScope s c).1 =
      match meetPath s.path c with
      | some m => s.moved m
      | none => s.revoked := by
  rw [macaroonApplyPathToScope, meetPath]
  split
  · split
    · next heq =>
      rw [← heq]
      rfl
    · rfl
  split
  · rfl
  · rfl

theorem Uniform.moved (h : Uniform scopes path) (ha : ScopePath a) :
    Uniform (scopes.map (·.moved a)) a := by
  refine ⟨ha, ?_, ?_⟩
  · intro s hs
    obtain ⟨s₀, hs₀, rfl⟩ := mem_map.mp hs
    exact ⟨rfl, (h.one s₀ hs₀).2⟩
  · have hfew := h.few
    rw [length_flatMap] at hfew ⊢
    rw [map_map]
    calc (scopes.map fun s => (s.moved a).entries.length).sum
        = (scopes.map fun s => s.entries.length).sum := by
          simp only [TokenScope.length_moved_entries]
      _ ≤ 3 := hfew

theorem Uniform.revoked (h : Uniform scopes path) :
    Uniform (scopes.map TokenScope.revoked) path := by
  refine ⟨h.scopePath, ?_, ?_⟩
  · intro s hs
    obtain ⟨s₀, hs₀, rfl⟩ := mem_map.mp hs
    exact ⟨(h.one s₀ hs₀).1, rfl⟩
  · have hnil : (scopes.map TokenScope.revoked).flatMap TokenScope.entries = [] := by
      simp [TokenScope.entries, TokenScope.revoked]
    rw [hnil]
    exact Nat.zero_le 3

theorem Uniform.narrow (h : Uniform scopes path) (ha : ScopePath a) :
    (∃ path', Uniform (scopes.map fun s => (macaroonApplyPathToScope s a).1) path') ∧
      ∀ perm p, ScopesAllow (scopes.map fun s => (macaroonApplyPathToScope s a).1) perm p ↔
        ScopesAllow scopes perm p ∧ tokenScopePathMatches a p = true := by
  have hmeet := fun p => meetPath_matches (p := p) h.scopePath.proper ha.proper
  cases hm : meetPath path a with
  | some m =>
    have heq : (scopes.map fun s => (macaroonApplyPathToScope s a).1) =
        scopes.map (·.moved m) :=
      map_congr_left fun s hs => by rw [applyPathToScope_eq, (h.one s hs).1, hm]
    have hpath : ScopePath m := by
      obtain rfl | rfl := meetPath_cases hm
      · exact h.scopePath
      · exact ha
    have hmoved := h.moved hpath
    refine ⟨⟨m, heq ▸ hmoved⟩, fun perm p => ?_⟩
    have hcover : tokenScopePathMatches m p = true ↔
        tokenScopePathMatches path p = true ∧ tokenScopePathMatches a p = true := by
      rw [← hmeet p, hm]
      simp
    rw [heq, hmoved.allow_iff, h.allow_iff, hcover, and_assoc]
    simp
  | none =>
    have heq : (scopes.map fun s => (macaroonApplyPathToScope s a).1) =
        scopes.map TokenScope.revoked :=
      map_congr_left fun s hs => by rw [applyPathToScope_eq, (h.one s hs).1, hm]
    refine ⟨⟨path, heq ▸ h.revoked⟩, fun perm p => ?_⟩
    rw [heq, h.revoked.allow_iff, h.allow_iff, and_assoc, ← hmeet p, hm]
    simp

/-- What narrowed claims keep, and what they allow: what the claims did and `R` permits. -/
structure Narrowed (claims claims' : TokenClaims) (R : Permission → Bytes → Prop) :
    Prop where
  uniform : ∃ path, Uniform claims'.scopes path
  allow_iff : ∀ perm p,
    ScopesAllow claims'.scopes perm p ↔ ScopesAllow claims.scopes perm p ∧ R perm p
  exp : claims'.exp = claims.exp

theorem Uniform.narrowScopes {paths : List Bytes} (h : Uniform scopes path)
    (hpaths : ∀ a ∈ paths, ScopePath a) :
    (∃ path', Uniform (macaroonNarrowScopes scopes paths).1 path') ∧
      ∀ perm p, ScopesAllow (macaroonNarrowScopes scopes paths).1 perm p ↔
        ScopesAllow scopes perm p ∧ ∀ a ∈ paths, tokenScopePathMatches a p = true := by
  induction paths generalizing scopes path with
  | nil => exact ⟨⟨path, h⟩, by simp [macaroonNarrowScopes]⟩
  | cons a paths ih =>
    obtain ⟨ha, hpaths⟩ := forall_mem_cons.mp hpaths
    obtain ⟨⟨path₁, h₁⟩, hallow₁⟩ := h.narrow ha
    obtain ⟨huniform, hallow⟩ := ih h₁ hpaths
    have heq : (macaroonNarrowScopes scopes (a :: paths)).1 =
        (macaroonNarrowScopes (scopes.map fun s => (macaroonApplyPathToScope s a).1)
          paths).1 := by
      rw [macaroonNarrowScopes, map_map]
      rfl
    rw [heq]
    refine ⟨huniform, fun perm p => ?_⟩
    rw [hallow, hallow₁, and_assoc, forall_mem_cons]

theorem applyPathCaveats_spec (claims : TokenClaims) {paths : List Bytes}
    (h : Uniform claims.scopes path) (hpaths : ∀ a ∈ paths, ScopePath a) :
    ∃ claims', macaroonApplyPathCaveats claims paths = some claims' ∧
      Narrowed claims claims' fun _ p => ∀ a ∈ paths, tokenScopePathMatches a p = true := by
  obtain ⟨⟨path', huniform⟩, hallow⟩ := h.narrowScopes hpaths
  obtain ⟨scopeRaw, hraw⟩ := Uniform.rebuild
    { claims with scopes := (macaroonNarrowScopes claims.scopes paths).1 } huniform
  by_cases hchanged : (macaroonNarrowScopes claims.scopes paths).2 = true
  · exact ⟨_, (if_pos hchanged).trans hraw, ⟨path', huniform⟩, hallow, rfl⟩
  · exact ⟨_, if_neg hchanged, ⟨path', huniform⟩, hallow, rfl⟩

/-! ## Scopes intersect -/

/-- A scope's permissions that another has too, on a path. -/
def TokenScope.meet (s r : TokenScope) (path : Bytes) : TokenScope :=
  ⟨path, s.read && r.read, s.write && r.write, s.create && r.create, s.modify && r.modify⟩

@[simp]
theorem TokenScope.meet_has (s r : TokenScope) :
    (s.meet r path).has perm = (s.has perm && r.has perm) := by
  cases perm <;> rfl

/-- A scope with the permissions of another in addition. -/
def TokenScope.join (s r : TokenScope) : TokenScope :=
  ⟨s.path, s.read || r.read, s.write || r.write, s.create || r.create, s.modify || r.modify⟩

@[simp]
theorem TokenScope.join_has (s r : TokenScope) :
    (s.join r).has perm = (s.has perm || r.has perm) := by
  cases perm <;> rfl

/-- Two scopes meet in one scope, or in none. -/
theorem scopeIntersection_cases (s r : TokenScope) (hs : ScopePath s.path)
    (hr : ScopePath r.path) :
    (∃ m, meetPath s.path r.path = some m ∧
      macaroonScopeIntersection s r = some (s.meet r m)) ∨
    macaroonScopeIntersection s r = none ∧
      (meetPath s.path r.path = none ∨ ∀ perm, (s.has perm && r.has perm) = false) := by
  rw [macaroonScopeIntersection]
  simp only
  split
  · next hnone =>
    refine .inr ⟨rfl, .inr fun perm => ?_⟩
    simp only [Bool.and_eq_true, Bool.not_eq_true'] at hnone
    cases perm with
    | read => exact hnone.1.1.1
    | write => exact hnone.1.1.2
    | modify => exact hnone.2
  · have hmeet : (if tokenScopePathMatches s.path r.path then some r.path
        else if tokenScopePathMatches r.path s.path then some s.path else none) =
        meetPath s.path r.path := rfl
    rw [hmeet]
    cases hm : meetPath s.path r.path with
    | none => exact .inr ⟨rfl, .inl rfl⟩
    | some m =>
      have hpath : ScopePath m := by
        obtain rfl | rfl := meetPath_cases hm
        · exact hs
        · exact hr
      refine .inl ⟨m, rfl, if_neg ?_⟩
      rintro (hzero | hlong)
      · exact hpath.proper.1 (length_eq_zero_iff.mp hzero)
      · exact absurd hpath.short (not_lt.mpr hlong)

/-- What the loops over pairs have put together: no scope yet, or one on the path. -/
def Gathered (scopes : List TokenScope) (path : Bytes) : Prop :=
  scopes = [] ∨ ∃ s, scopes = [s] ∧ s.path = path ∧ s.create = false

theorem Gathered.uniform (h : Gathered scopes path) (hpath : ScopePath path) :
    Uniform scopes path := by
  obtain rfl | ⟨s, rfl, rfl, hcreate⟩ := h
  · exact ⟨hpath, nofun, Nat.zero_le 3⟩
  · refine ⟨hpath, fun t ht => ?_, ?_⟩
    · rw [mem_singleton.mp ht]
      exact ⟨rfl, hcreate⟩
    · obtain ⟨q, r, w, c, m⟩ := s
      cases hcreate
      cases r <;> cases w <;> cases m <;> simp [TokenScope.entries]

theorem mergeIntersection_gathered {c : TokenScope} (h : Gathered scopes c.path)
    (hcreate : c.create = false) :
    ∃ scopes', macaroonMergeIntersection c [] scopes = some scopes' ∧
      Gathered scopes' c.path ∧
      ∀ perm, (∃ s ∈ scopes', s.has perm = true) ↔
        (∃ s ∈ scopes, s.has perm = true) ∨ c.has perm = true := by
  obtain rfl | ⟨s, rfl, hpath, hs⟩ := h
  · exact ⟨[c], rfl, .inr ⟨c, rfl, rfl, hcreate⟩, by simp⟩
  · refine ⟨[s.join c], if_pos hpath, .inr ⟨_, rfl, hpath, ?_⟩, by simp⟩
    rw [TokenScope.join, hs, hcreate]
    rfl

/-- Merging the meets of all pairs gives what one of them gives. -/
theorem mergeAll_some {pairs : List (TokenScope × TokenScope)} {m : Bytes}
    (ha : ScopePath a) (hb : ScopePath b) (hm : meetPath a b = some m)
    (hpairs : ∀ q ∈ pairs, (q.1.path = a ∧ q.1.create = false) ∧ q.2.path = b)
    (h : Gathered scopes m) :
    ∃ scopes', macaroonMergeAll scopes pairs = some scopes' ∧ Gathered scopes' m ∧
      ∀ perm, (∃ s ∈ scopes', s.has perm = true) ↔
        (∃ s ∈ scopes, s.has perm = true) ∨
          ∃ q ∈ pairs, (q.1.has perm && q.2.has perm) = true := by
  induction pairs generalizing scopes with
  | nil => exact ⟨scopes, rfl, h, by simp⟩
  | cons q pairs ih =>
    obtain ⟨⟨⟨hqa, hcreate⟩, hqb⟩, hpairs⟩ := forall_mem_cons.mp hpairs
    obtain ⟨m', hm', hinter⟩ | ⟨hinter, hnone⟩ :=
      scopeIntersection_cases q.1 q.2 (by rwa [hqa]) (by rwa [hqb])
    · rw [hqa, hqb, hm] at hm'
      cases hm'
      obtain ⟨scopes₁, hmerge, h₁, hhas₁⟩ :=
        mergeIntersection_gathered (c := q.1.meet q.2 m) h (by rw [TokenScope.meet, hcreate]; rfl)
      obtain ⟨scopes', hall, h', hhas⟩ := ih hpairs h₁
      refine ⟨scopes', ?_, h', fun perm => ?_⟩
      · simp only [macaroonMergeAll, hinter, hmerge, hall]
      · rw [hhas, hhas₁, TokenScope.meet_has, or_assoc]
        simp
    · obtain ⟨scopes', hall, h', hhas⟩ := ih hpairs h
      refine ⟨scopes', ?_, h', fun perm => ?_⟩
      · simp only [macaroonMergeAll, hinter, hall]
      · rw [hqa, hqb, hm] at hnone
        have hno := (hnone.resolve_left nofun) perm
        rw [hhas, exists_mem_cons_iff, hno]
        simp

theorem mergeAll_none (scopes : List TokenScope) {pairs : List (TokenScope × TokenScope)}
    (ha : ScopePath a) (hb : ScopePath b) (hm : meetPath a b = none)
    (hpairs : ∀ q ∈ pairs, q.1.path = a ∧ q.2.path = b) :
    macaroonMergeAll scopes pairs = some scopes := by
  induction pairs with
  | nil => rfl
  | cons q pairs ih =>
    obtain ⟨⟨hqa, hqb⟩, hpairs⟩ := forall_mem_cons.mp hpairs
    obtain ⟨m', hm', -⟩ | ⟨hinter, -⟩ :=
      scopeIntersection_cases q.1 q.2 (by rwa [hqa]) (by rwa [hqb])
    · rw [hqa, hqb, hm] at hm'
      cases hm'
    · simp only [macaroonMergeAll, hinter, ih hpairs]

theorem pairs_has : (∃ q ∈ scopes.flatMap fun s => restriction.map fun r => (s, r),
      (q.1.has perm && q.2.has perm) = true) ↔
    (∃ s ∈ scopes, s.has perm = true) ∧ ∃ r ∈ restriction, r.has perm = true := by
  constructor
  · rintro ⟨q, hq, hhas⟩
    obtain ⟨s, hs, hq⟩ := mem_flatMap.mp hq
    obtain ⟨r, hr, rfl⟩ := mem_map.mp hq
    obtain ⟨hs', hr'⟩ := Bool.and_eq_true_iff.mp hhas
    exact ⟨⟨s, hs, hs'⟩, r, hr, hr'⟩
  · rintro ⟨⟨s, hs, hs'⟩, r, hr, hr'⟩
    exact ⟨(s, r), mem_flatMap.mpr ⟨s, hs, mem_map.mpr ⟨r, hr, rfl⟩⟩,
      Bool.and_eq_true_iff.mpr ⟨hs', hr'⟩⟩

/-- An intersection of claims allows what both allow. -/
theorem intersectClaimScopes_spec (claims : TokenClaims) {r : TokenClaims}
    (h : Uniform claims.scopes a) (hr : Uniform r.scopes b) :
    ∃ claims', macaroonIntersectClaimScopes claims r = some claims' ∧
      Narrowed claims claims' (ScopesAllow r.scopes) := by
  have hmeet := fun p => meetPath_matches (p := p) h.scopePath.proper hr.scopePath.proper
  have hpairs : ∀ q ∈ claims.scopes.flatMap fun p => r.scopes.map fun r => (p, r),
      (q.1.path = a ∧ q.1.create = false) ∧ q.2.path = b := by
    intro q hq
    obtain ⟨s, hs, hq⟩ := mem_flatMap.mp hq
    obtain ⟨t, ht, rfl⟩ := mem_map.mp hq
    exact ⟨h.one s hs, (hr.one t ht).1⟩
  cases hm : meetPath a b with
  | some m =>
    have hpath : ScopePath m := by
      obtain rfl | rfl := meetPath_cases hm
      · exact h.scopePath
      · exact hr.scopePath
    obtain ⟨scopes', hall, hgathered, hhas⟩ :=
      mergeAll_some h.scopePath hr.scopePath hm hpairs (.inl rfl)
    have huniform := hgathered.uniform hpath
    obtain ⟨scopeRaw, hraw⟩ := Uniform.rebuild
      { claims with scopes := scopes' } huniform
    refine ⟨{ claims with scopes := scopes', scopeRaw }, ?_, ⟨m, huniform⟩, fun perm p => ?_, rfl⟩
    · simp only [macaroonIntersectClaimScopes, hall, hraw]
    · have hcover : tokenScopePathMatches m p = true ↔
          tokenScopePathMatches a p = true ∧ tokenScopePathMatches b p = true := by
        rw [← hmeet p, hm]
        simp
      rw [huniform.allow_iff, h.allow_iff, hr.allow_iff, hhas, hcover, pairs_has,
        and_and_and_comm]
      simp
  | none =>
    have hall := mergeAll_none [] h.scopePath hr.scopePath hm
      fun q hq => ⟨(hpairs q hq).1.1, (hpairs q hq).2⟩
    have huniform : Uniform ([] : List TokenScope) a := ⟨h.scopePath, nofun, Nat.zero_le 3⟩
    obtain ⟨scopeRaw, hraw⟩ := Uniform.rebuild
      { claims with scopes := [] } huniform
    refine ⟨{ claims with scopes := [], scopeRaw }, ?_, ⟨a, huniform⟩, fun perm p => ?_, rfl⟩
    · simp only [macaroonIntersectClaimScopes, hall, hraw]
    · rw [h.allow_iff, hr.allow_iff, and_and_and_comm, ← hmeet p, hm]
      simp [ScopesAllow]

end BrixCache
