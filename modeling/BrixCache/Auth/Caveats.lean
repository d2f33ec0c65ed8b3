import BrixCache.Core.Ascii
import BrixCache.Lib.Segments
import BrixCache.Lib.Words
import BrixCache.Core.Calendar
import Mathlib.Algebra.Group.Nat.Defs
import Mathlib.Data.List.Chain

/-!
# Token scopes

`scopes.c`: the entries `permission:path` of a scope claim, the match of a scope's
path with a request's, the spelling of paths that a caveat may have, and the two
checks that an operation is let through by.
-/

namespace BrixCache

open Segments List

def scopePathMax : ℕ := 256

def maxTokenScopes : ℕ := 8

/-- `brix_token_scope_t`: a path is what stands before the NUL. -/
structure TokenScope : Type where
  path : Bytes
  read : Bool
  write : Bool
  create : Bool
  modify : Bool
  deriving DecidableEq, Repr

/-! ## Entries -/

/-- The path of a scope, cut to its buffer. -/
def tokenScopeCopyPath (path : Bytes) : Bytes :=
  if path = [] then [slash] else path.take (scopePathMax - 1)

/-- The permission bits of a storage word. -/
def tokenScopeSetPermission (path permission : Bytes) : TokenScope :=
  { path
    read := permission = ascii "storage.read" ∨ permission = ascii "storage.stage"
    write := permission = ascii "storage.write"
    create := permission = ascii "storage.create"
    modify := permission = ascii "storage.modify" }

/-- The scope of one entry; none without a colon. -/
def tokenParseScope (entry : Bytes) : Option TokenScope :=
  if 58 ∈ entry then
    some (tokenScopeSetPermission (tokenScopeCopyPath ((entry.dropWhile (· ≠ 58)).drop 1))
      (entry.takeWhile (· ≠ 58)))
  else none

/-- The storage scopes of a space-separated claim. -/
def tokenParseScopes (scopes : Bytes) (max : ℕ) : List TokenScope :=
  ((Words.words 32 scopes).filterMap tokenParseScope).take max

/-! ## Paths -/

/-- A path without one slash at its end. -/
def trimSlash (path : Bytes) : Bytes :=
  if 1 < path.length ∧ path.getLast? = some slash then path.dropLast else path

/-- The scope's path covers the request at a component boundary. -/
def tokenScopePathMatches (scope request : Bytes) : Bool :=
  if scope = [slash] then true
  else
    let scope := trimSlash scope
    request.take scope.length = scope &&
      (request[scope.length]? = none || request[scope.length]? = some slash)

def tokenScopeSegmentIsDot (segment : Bytes) : Bool := segment = [46] || segment = [46, 46]

/-- The loop of `brix_token_scope_path_is_canonical`, after `prev` and in a segment. -/
def canonicalFrom (prev : Option UInt8) (segment : Bytes) : Bytes → Bool
  | [] => !tokenScopeSegmentIsDot segment
  | c :: cs =>
    if c < 0x20 || c = 0x7f || c = 92 then false
    else if c ≠ slash then canonicalFrom (some c) (segment ++ [c]) cs
    else if prev = some slash || tokenScopeSegmentIsDot segment then false
    else canonicalFrom (some c) [] cs

/-- Absolute, without empty or dot segments. -/
def tokenScopePathIsCanonical (path : Bytes) : Bool :=
  path.head? = some slash && canonicalFrom none [] path

/-! ## Checks -/

/-- Some read scope covers the path. -/
def tokenCheckRead (scopes : List TokenScope) (path : Bytes) : Bool :=
  scopes.any fun s => s.read && tokenScopePathMatches s.path path

/-- Some write, create or modify scope covers the path. -/
def tokenCheckWrite (scopes : List TokenScope) (path : Bytes) : Bool :=
  scopes.any fun s => (s.write || s.create || s.modify) && tokenScopePathMatches s.path path

/-! ## What a path covers -/

variable {s c p : Bytes}

theorem matches_iff : tokenScopePathMatches s p = true ↔
    s = [slash] ∨ AtOrBelow slash (trimSlash s) p := by
  rw [tokenScopePathMatches]
  split
  · next h => simp [h]
  · next h =>
    simp only [h, false_or, Bool.and_eq_true, Bool.or_eq_true, decide_eq_true_eq]
    constructor
    · rintro ⟨htake, hnone | hslash⟩
      · have hlen := List.getElem?_eq_none_iff.mp hnone
        exact .inl (by rw [← htake, take_of_length_le hlen])
      · obtain ⟨hlt, hget⟩ := List.getElem?_eq_some_iff.mp hslash
        refine .inr ⟨p.drop ((trimSlash s).length + 1), ?_⟩
        conv_rhs => rw [← take_append_drop (trimSlash s).length p, htake,
          drop_eq_getElem_cons hlt, hget]
        simp
    · rintro (rfl | ⟨t, rfl⟩)
      · simp
      · simp

theorem trimSlash_cases (p : Bytes) : trimSlash p = p ∨ p = trimSlash p ++ [slash] := by
  rw [trimSlash]
  split
  · next h => exact .inr (dropLast_append_getLast? slash h.2).symm
  · exact .inl rfl

/-- A path that does not end in two slashes. -/
def Proper (p : Bytes) : Prop :=
  p ≠ [] ∧ (p = [slash] ∨ (trimSlash p).getLast? ≠ some slash)

theorem Proper.trim_ne_nil (h : Proper p) (hp : p ≠ [slash]) : trimSlash p ≠ [] := by
  intro hnil
  obtain heq | heq := trimSlash_cases p
  · exact h.1 (heq.symm.trans hnil)
  · rw [hnil, nil_append] at heq
    exact hp heq

theorem atOrBelow_trim (hs : s.getLast? ≠ some slash) (h : AtOrBelow slash s p) :
    AtOrBelow slash s (trimSlash p) := by
  obtain heq | heq := trimSlash_cases p
  · rwa [heq]
  · obtain rfl | hb := h
    · rw [heq] at hs
      simp at hs
    · rw [heq] at hb
      have hb : s ++ [slash] <+: trimSlash p ++ [slash] := hb
      obtain hsame | hb := prefix_concat_iff.mp hb
      · exact .inl (append_inj_left' hsame rfl).symm
      · exact .inr hb

theorem atOrBelow_of_trim (h : AtOrBelow slash s (trimSlash p)) : AtOrBelow slash s p := by
  obtain heq | heq := trimSlash_cases p
  · rwa [← heq]
  · rw [heq]
    refine .inr ?_
    obtain hs | ⟨t, ht⟩ := h
    · exact ⟨[], by rw [hs, append_nil]⟩
    · exact ⟨t ++ [slash], by rw [← ht]; simp⟩

theorem matches_trans (hs : Proper s) (hsc : tokenScopePathMatches s c = true)
    (hcp : tokenScopePathMatches c p = true) : tokenScopePathMatches s p = true := by
  rw [matches_iff] at hsc hcp ⊢
  by_cases hroot : s = [slash]
  · exact .inl hroot
  have hlast : (trimSlash s).getLast? ≠ some slash := hs.2.resolve_left hroot
  have hsc := hsc.resolve_left hroot
  obtain rfl | hcp := hcp
  · -- only the root covers the root
    exfalso
    obtain heq | ⟨t, ht⟩ := hsc
    · rw [← heq] at hlast
      exact hlast rfl
    · have hlen := congrArg length ht
      rw [length_append, length_append] at hlen
      have hpos := length_pos_of_ne_nil (hs.trim_ne_nil hroot)
      simp at hlen
      omega
  · refine .inr ?_
    obtain heq | hb := atOrBelow_trim hlast hsc
    · rwa [← heq]
    · obtain rfl | hp := hcp
      · exact .inr hb
      · exact .inr (hb.trans hp)

theorem matches_comparable (hs : tokenScopePathMatches s p = true)
    (hc : tokenScopePathMatches c p = true) :
    tokenScopePathMatches s c = true ∨ tokenScopePathMatches c s = true := by
  simp only [matches_iff] at *
  obtain hs | hs := hs
  · exact .inl (.inl hs)
  obtain hc | hc := hc
  · exact .inr (.inl hc)
  obtain h | h := hs.comparable hc
  · exact .inl (.inr (atOrBelow_of_trim h))
  · exact .inr (.inr (atOrBelow_of_trim (.inr h)))

theorem canonicalFrom_chain {prev : Option UInt8} {segment : Bytes} {cs : Bytes}
    (h : canonicalFrom prev segment cs = true) :
    (prev.toList ++ cs).IsChain fun a b => ¬(a = slash ∧ b = slash) := by
  induction cs generalizing prev segment with
  | nil => cases prev <;> simp
  | cons c cs ih =>
    rw [canonicalFrom] at h
    split at h
    · cases h
    split at h
    · next hc =>
      have hchain : (c :: cs).IsChain fun a b => ¬(a = slash ∧ b = slash) := ih h
      cases prev with
      | none => exact hchain
      | some a => exact isChain_cons_cons.mpr ⟨fun heq => hc heq.2, hchain⟩
    · split at h
      · cases h
      · next hprev =>
        have hchain : (c :: cs).IsChain fun a b => ¬(a = slash ∧ b = slash) := ih h
        cases prev with
        | none => exact hchain
        | some a =>
          refine isChain_cons_cons.mpr ⟨fun heq => hprev ?_, hchain⟩
          simp [heq.1]

/-- A path that passes the check is a proper one. -/
theorem proper_of_canonical (h : tokenScopePathIsCanonical p = true) : Proper p := by
  obtain ⟨hhead, hfrom⟩ := Bool.and_eq_true_iff.mp h
  have hchain := canonicalFrom_chain hfrom
  rw [Option.toList_none, nil_append] at hchain
  have hne : p ≠ [] := by
    rintro rfl
    simp at hhead
  refine ⟨hne, ?_⟩
  by_contra hcon
  obtain ⟨hroot, hlast⟩ := not_or.mp hcon
  have hlast := not_not.mp hlast
  obtain heq | heq := trimSlash_cases p
  · rw [trimSlash] at heq
    split at heq
    · have hlen := congrArg length heq
      rw [length_dropLast] at hlen
      have hpos := length_pos_of_ne_nil hne
      omega
    · next hshort =>
      rw [trimSlash, if_neg hshort] at hlast
      have hle : p.length ≤ 1 := by
        by_contra hlt
        exact hshort ⟨by omega, hlast⟩
      obtain ⟨a, rfl⟩ := length_eq_one_iff.mp
        (Nat.le_antisymm hle (length_pos_of_ne_nil hne))
      rw [getLast?_singleton] at hlast
      exact hroot (by rw [Option.some.inj hlast])
  · rw [← dropLast_append_getLast? slash hlast] at heq
    rw [heq, append_assoc] at hchain
    have hpair := hchain.right_of_append
    simp at hpair

end BrixCache

/-!
## Macaroon caveats

`macaroon_caveats.c`: what an `activity:`, a `before:` and a `path:` caveat restrict.
-/

namespace BrixCache

/-- `brix_token_claims_t`, each text up to its NUL. -/
structure TokenClaims : Type where
  sub : Bytes
  iss : Bytes
  aud : Bytes
  exp : ℤ
  nbf : ℤ
  iat : ℤ
  scopeRaw : Bytes
  groups : Bytes
  scopes : List TokenScope
  deriving DecidableEq

def TokenClaims.zero : TokenClaims := ⟨[], [], [], 0, 0, 0, [], [], []⟩

/-! ### Timestamps -/

/-- The loop of `macaroon_parse_decimal`, from a value below `INT_MAX`. -/
def macaroonDecimalFrom (value : ℕ) : Bytes → Option ℕ
  | [] => some value
  | c :: text =>
    if c < 48 ∨ 57 < c then none
    else
      let digit := c.toNat - 48
      if (2 ^ 31 - 1 - digit) / 10 < value then none
      else macaroonDecimalFrom (value * 10 + digit) text

def macaroonParseDecimal (text : Bytes) : Option ℕ :=
  if text = [] then none else macaroonDecimalFrom 0 text

/-- Twenty bytes with digits and separators in place. -/
def macaroonTimestampShapeValid (text : Bytes) : Bool :=
  text.length = 20 &&
    ((ascii "0000-00-00T00:00:00Z").zip text).all fun (s, c) => s = 48 || c = s

def macaroonTimestampField (text : Bytes) (offset width : ℕ) : Option ℕ :=
  macaroonParseDecimal ((text.drop offset).take width)

def macaroonParseTimestampFields (text : Bytes) : Option Tm := do
  let year ← macaroonTimestampField text 0 4
  let mon ← macaroonTimestampField text 5 2
  let mday ← macaroonTimestampField text 8 2
  let hour ← macaroonTimestampField text 11 2
  let min ← macaroonTimestampField text 14 2
  let sec ← macaroonTimestampField text 17 2
  return ⟨year, mon, mday, hour, min, sec⟩

/-- `parse_iso8601`: a date that `timegm` would normalize is refused. -/
def parseIso8601 (text : Bytes) : Option ℤ :=
  if macaroonTimestampShapeValid text then
    match macaroonParseTimestampFields text with
    | none => none
    | some tm =>
      if timegm tm = -1 ∨ gmtime (timegm tm) ≠ tm then none else some (timegm tm)
  else none

/-! ### Activities -/

/-- The bits of an activity mask. -/
structure MacaroonActivity : Type where
  read : Bool
  write : Bool
  modify : Bool
  deriving DecidableEq

namespace MacaroonActivity

def empty : MacaroonActivity := ⟨false, false, false⟩

def union (a b : MacaroonActivity) : MacaroonActivity :=
  ⟨a.read || b.read, a.write || b.write, a.modify || b.modify⟩

def inter (a b : MacaroonActivity) : MacaroonActivity :=
  ⟨a.read && b.read, a.write && b.write, a.modify && b.modify⟩

end MacaroonActivity

/-- The permissions an activity name stands for. -/
def macaroonPermissionForActivity (activity : Bytes) : Option MacaroonActivity :=
  if activity = ascii "DOWNLOAD" ∨ activity = ascii "LIST" ∨ activity = ascii "STAGE" then
    some ⟨true, false, false⟩
  else if activity = ascii "UPLOAD" ∨ activity = ascii "DELETE" then some ⟨false, true, false⟩
  else if activity = ascii "MANAGE" then some ⟨false, false, true⟩
  else none

/-- The mask of the activities between commas, `w` read of the first and `mask` before it. -/
def macaroonActivityMask (mask : MacaroonActivity) (w : Bytes) :
    Bytes → Option MacaroonActivity
  | [] => (macaroonPermissionForActivity w).map mask.union
  | c :: cs =>
    if c = 44 then
      match macaroonPermissionForActivity w with
      | none => none
      | some permission => macaroonActivityMask (mask.union permission) [] cs
    else macaroonActivityMask mask (w ++ [c]) cs

/-- `BRIX_TOKEN_MACAROON_SCOPE_BUF_SIZE` -/
def macaroonScopeBufSize : ℕ := 1024

/-- Append a scope word if the buffer holds it. -/
def macaroonAppendActivityScope (buf : Bytes) (scope : String) : Option Bytes :=
  let needed := (ascii scope).length + 2 + if 0 < buf.length then 1 else 0
  if macaroonScopeBufSize ≤ buf.length ∨ macaroonScopeBufSize - buf.length ≤ needed then none
  else some (buf ++ (if 0 < buf.length then [32] else []) ++ ascii scope ++ [58, slash])

/-- The scope text of an activity mask. -/
def macaroonRebuildActivityScopes (mask : MacaroonActivity) : Option Bytes := do
  let buf ← if mask.read then macaroonAppendActivityScope [] "storage.read" else some []
  let buf ← if mask.write then macaroonAppendActivityScope buf "storage.write" else some buf
  if mask.modify then macaroonAppendActivityScope buf "storage.modify" else some buf

/-! ### First-party caveats -/

/-- What the first-party caveats of a macaroon have restricted so far: a part of
`brix_macaroon_parse_state_t`, with the expiry in its claims. -/
structure MacaroonLimits : Type where
  activitySeen : Bool
  activityMask : MacaroonActivity
  scopeBuf : Bytes
  beforeSeen : Bool
  exp : ℤ
  pathCaveats : List Bytes
  deriving DecidableEq

/-- No caveat was read. -/
def MacaroonLimits.zero : MacaroonLimits := ⟨false, .empty, [], false, 0, []⟩

/-- The bytes behind a label, if they start with it. -/
def labelled (label : String) (data : Bytes) : Option Bytes :=
  if ascii label <+: data then some (data.drop (ascii label).length) else none

/-- Narrow the activities by one caveat. -/
def macaroonParseActivityCaveat (state : MacaroonLimits) (activities : Bytes) :
    Option MacaroonLimits :=
  match macaroonActivityMask .empty [] activities with
  | none => none
  | some caveatMask =>
    let activityMask := if state.activitySeen then state.activityMask.inter caveatMask
      else caveatMask
    (macaroonRebuildActivityScopes activityMask).map fun scopeBuf =>
      { state with activitySeen := true, activityMask, scopeBuf }

/-- Keep the earliest expiry. -/
def macaroonParseBeforeCaveat (state : MacaroonLimits) (text : Bytes) :
    Option MacaroonLimits :=
  (parseIso8601 text).map fun exp =>
    { state with
      exp := if !state.beforeSeen ∨ exp < state.exp then exp else state.exp
      beforeSeen := true }

/-- Remember a path caveat, eight at most. -/
def macaroonParsePathCaveat (state : MacaroonLimits) (path : Bytes) :
    Option MacaroonLimits :=
  if 8 ≤ state.pathCaveats.length ∨ scopePathMax ≤ path.length ∨
      tokenScopePathIsCanonical path = false then none
  else some { state with pathCaveats := state.pathCaveats ++ [path] }

/-- Dispatch a first party caveat on its label. -/
def macaroonParseFirstPartyCaveat (state : MacaroonLimits) (caveat : Bytes) :
    Option MacaroonLimits :=
  match labelled "activity:" caveat with
  | some activities => macaroonParseActivityCaveat state activities
  | none =>
    match labelled "before:" caveat with
    | some text => macaroonParseBeforeCaveat state text
    | none =>
      match labelled "path:" caveat with
      | some path => macaroonParsePathCaveat state path
      | none => none

/-! ### Scopes -/

/-- The texts of `macaroon_rebuild_scope_raw`, one for each permission of each scope. -/
def TokenScope.entries (s : TokenScope) : List Bytes :=
  (if s.read then [ascii "storage.read" ++ 58 :: s.path] else []) ++
  (if s.write then [ascii "storage.write" ++ 58 :: s.path] else []) ++
  (if s.create then [ascii "storage.create" ++ 58 :: s.path] else []) ++
  if s.modify then [ascii "storage.modify" ++ 58 :: s.path] else []

/-- The size of `scope_raw` -/
def scopeRawSize : ℕ := 1024

/-- The loop of `macaroon_rebuild_scope_raw`; an entry's size has its NUL. -/
def macaroonScopeRawFrom (raw : Bytes) : List Bytes → Option Bytes
  | [] => some raw
  | e :: es =>
    let needed := e.length + 1 + if 0 < raw.length then 1 else 0
    if scopeRawSize ≤ raw.length ∨ scopeRawSize - raw.length < needed then none
    else macaroonScopeRawFrom (raw ++ (if 0 < raw.length then [32] else []) ++ e) es

/-- The raw scope text of the scopes kept. -/
def macaroonRebuildScopeRaw (claims : TokenClaims) : Option TokenClaims :=
  (macaroonScopeRawFrom [] (claims.scopes.flatMap TokenScope.entries)).map fun scopeRaw =>
    { claims with scopeRaw }

/-- `macaroon_apply_path_to_scope`, and whether the scope was narrowed -/
def macaroonApplyPathToScope (scope : TokenScope) (path : Bytes) : TokenScope × Bool :=
  if tokenScopePathMatches scope.path path then
    if scope.path = path then (scope, false) else ({ scope with path }, true)
  else if tokenScopePathMatches path scope.path then (scope, false)
  else ({ scope with read := false, write := false, create := false, modify := false }, true)

/-- The scopes narrowed by every path, one after the other. -/
def macaroonNarrowScopes (scopes : List TokenScope) : List Bytes → List TokenScope × Bool
  | [] => (scopes, false)
  | path :: paths =>
    let narrowed := scopes.map fun s => macaroonApplyPathToScope s path
    let rest := macaroonNarrowScopes (narrowed.map (·.1)) paths
    (rest.1, narrowed.any (·.2) || rest.2)

/-- Narrow the scopes by every path caveat. -/
def macaroonApplyPathCaveats (claims : TokenClaims) (paths : List Bytes) :
    Option TokenClaims :=
  let narrowed := macaroonNarrowScopes claims.scopes paths
  let claims := { claims with scopes := narrowed.1 }
  if narrowed.2 then macaroonRebuildScopeRaw claims else some claims

/-- What two scopes both grant, at the deeper path. -/
def macaroonScopeIntersection (parent restriction : TokenScope) : Option TokenScope :=
  let result : TokenScope :=
    { path := []
      read := parent.read && restriction.read
      write := parent.write && restriction.write
      create := parent.create && restriction.create
      modify := parent.modify && restriction.modify }
  if !result.read && !result.write && !result.create && !result.modify then none
  else
    let path :=
      if tokenScopePathMatches parent.path restriction.path then some restriction.path
      else if tokenScopePathMatches restriction.path parent.path then some parent.path
      else none
    match path with
    | none => none
    | some path =>
      if path.length = 0 ∨ scopePathMax ≤ path.length then none else some { result with path }

/-- Add a scope, or join it with the one of its path. -/
def macaroonMergeIntersection (candidate : TokenScope) :
    List TokenScope → List TokenScope → Option (List TokenScope)
  | before, [] =>
    if maxTokenScopes ≤ before.length then none else some (before ++ [candidate])
  | before, s :: scopes =>
    if s.path = candidate.path then
      some (before ++
        { s with
          read := s.read || candidate.read
          write := s.write || candidate.write
          create := s.create || candidate.create
          modify := s.modify || candidate.modify } :: scopes)
    else macaroonMergeIntersection candidate (before ++ [s]) scopes

/-- The loops of `macaroon_intersect_claim_scopes` over the pairs of scopes. -/
def macaroonMergeAll (narrowed : List TokenScope) :
    List (TokenScope × TokenScope) → Option (List TokenScope)
  | [] => some narrowed
  | (parent, restriction) :: pairs =>
    match macaroonScopeIntersection parent restriction with
    | none => macaroonMergeAll narrowed pairs
    | some candidate =>
      match macaroonMergeIntersection candidate [] narrowed with
      | none => none
      | some narrowed => macaroonMergeAll narrowed pairs

/-- Every pair of scopes intersected and merged. -/
def macaroonIntersectClaimScopes (claims restriction : TokenClaims) : Option TokenClaims :=
  match macaroonMergeAll []
      (claims.scopes.flatMap fun p => restriction.scopes.map fun r => (p, r)) with
  | none => none
  | some scopes => macaroonRebuildScopeRaw { claims with scopes }

end BrixCache
