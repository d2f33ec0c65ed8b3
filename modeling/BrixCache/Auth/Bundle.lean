import BrixCache.Auth.Authority
import BrixCache.Auth.Packets
import Mathlib.Data.List.Perm.Subperm

/-!
# What caveats permit

A first-party caveat permits operations on paths and an instant, and what a macaroon's
caveats leave in its limits and claims is what all of them permit. An activity is allowed
only where some caveat names it.
-/

namespace BrixCache

open List

/-! ## One caveat -/

/-- The caveat names activities. -/
def isActivity (caveat : Bytes) : Bool := (labelled "activity:" caveat).isSome

/-- What one caveat leaves of a permission on a path. -/
def caveatPermits (caveat : Bytes) (perm : Permission) (p : Bytes) : Bool :=
  match labelled "activity:" caveat with
  | some activities => (macaroonActivityMask .empty [] activities).any (·.has perm)
  | none =>
    match labelled "path:" caveat with
    | some path => tokenScopePathMatches path p
    | none => true

/-- A caveat lets a macaroon live at an instant. -/
def caveatLive (caveat : Bytes) (t : ℤ) : Bool :=
  match labelled "before:" caveat with
  | some text => (parseIso8601 text).all (t < ·)
  | none => true

variable {limits limits' : MacaroonLimits} {caveat : Bytes} {caveats : List Bytes}
  {perm : Permission} {p : Bytes} {t : ℤ}

/-- What limits permit, where an activity was not named too. -/
def MacaroonLimits.Permits (limits : MacaroonLimits) (perm : Permission) (p : Bytes) :
    Prop :=
  (limits.activitySeen = true → limits.activityMask.has perm = true) ∧
    ∀ path ∈ limits.pathCaveats, tokenScopePathMatches path p = true

/-- The limits are not over at `t`. -/
def MacaroonLimits.Live (limits : MacaroonLimits) (t : ℤ) : Prop :=
  limits.beforeSeen = true → t < limits.exp

/-- The activities the caveats leave. -/
def MacaroonLimits.mask (limits : MacaroonLimits) : MacaroonActivity :=
  if limits.activitySeen then limits.activityMask else .empty

/-- Limits that caveats have left -/
structure MacaroonLimits.Sound (limits : MacaroonLimits) : Prop where
  scopeBuf : macaroonRebuildActivityScopes limits.mask = some limits.scopeBuf
  paths : ∀ path ∈ limits.pathCaveats, ScopePath path

theorem MacaroonLimits.sound_zero : MacaroonLimits.zero.Sound := ⟨by decide, nofun⟩

theorem MacaroonActivity.inter_has (a b : MacaroonActivity) :
    (a.inter b).has perm = (a.has perm && b.has perm) := by
  cases perm <;> rfl

/-- What one more caveat does to the limits -/
structure Restricted (limits limits' : MacaroonLimits) (caveat : Bytes) : Prop where
  sound : limits.Sound → limits'.Sound
  seen : limits'.activitySeen = (limits.activitySeen || isActivity caveat)
  permits : ∀ perm p, limits'.Permits perm p ↔
    limits.Permits perm p ∧ caveatPermits caveat perm p = true
  live : ∀ t, limits'.Live t ↔ limits.Live t ∧ caveatLive caveat t = true

theorem restricted_activity {activities : Bytes}
    (h : macaroonParseActivityCaveat limits activities = some limits') :
    Restricted limits limits' (ascii "activity:" ++ activities) := by
  rw [macaroonParseActivityCaveat] at h
  split at h
  · cases h
  next mask hmask =>
  rw [Option.map_eq_some_iff] at h
  obtain ⟨scopeBuf, hbuf, rfl⟩ := h
  refine ⟨fun hs => ⟨hbuf, hs.paths⟩, ?_, fun perm p => ?_, fun t => ?_⟩
  · simp [isActivity]
  · simp only [MacaroonLimits.Permits, caveatPermits, labelled_append, hmask, Option.any_some]
    cases limits.activitySeen with
    | true =>
      simp [MacaroonActivity.inter_has]
      tauto
    | false =>
      simp
      tauto
  · rw [caveatLive, labelled_of_ne (by decide)]
    simp [MacaroonLimits.Live]

theorem restricted_before {text : Bytes}
    (h : macaroonParseBeforeCaveat limits text = some limits') :
    Restricted limits limits' (ascii "before:" ++ text) := by
  rw [macaroonParseBeforeCaveat, Option.map_eq_some_iff] at h
  obtain ⟨exp, hexp, rfl⟩ := h
  refine ⟨fun hs => ⟨hs.scopeBuf, hs.paths⟩, ?_, fun perm p => ?_, fun t => ?_⟩
  · simp [isActivity, labelled_of_ne (by decide : ¬(ascii "activity:" <+: ascii "before:" ∨
      ascii "before:" <+: ascii "activity:"))]
  · rw [caveatPermits, labelled_of_ne (by decide), labelled_of_ne (by decide)]
    simp [MacaroonLimits.Permits]
  · simp only [caveatLive, labelled_append, hexp, Option.all_some, MacaroonLimits.Live,
      decide_eq_true_eq]
    cases limits.beforeSeen with
    | false => simp
    | true =>
      simp only [Bool.not_true, Bool.false_eq_true, false_or, true_implies]
      split <;> omega

theorem restricted_path {path : Bytes}
    (h : macaroonParsePathCaveat limits path = some limits') :
    Restricted limits limits' (ascii "path:" ++ path) := by
  rw [macaroonParsePathCaveat] at h
  split at h
  · cases h
  next hc =>
  obtain ⟨-, hshort, hcanonical⟩ : _ ∧ _ ∧ _ := by simpa using hc
  cases h
  refine ⟨fun hs => ⟨hs.scopeBuf, ?_⟩, ?_, fun perm p => ?_, fun t => ?_⟩
  · intro q hq
    obtain hq | hq := mem_append.mp hq
    · exact hs.paths q hq
    · rw [mem_singleton.mp hq]
      exact ⟨proper_of_canonical hcanonical, hshort⟩
  · simp [isActivity, labelled_of_ne (by decide : ¬(ascii "activity:" <+: ascii "path:" ∨
      ascii "path:" <+: ascii "activity:"))]
  · rw [caveatPermits, labelled_of_ne (by decide), labelled_append]
    simp only [MacaroonLimits.Permits, forall_mem_append, forall_mem_singleton,
      and_assoc]
  · rw [caveatLive, labelled_of_ne (by decide)]
    simp [MacaroonLimits.Live]

theorem restricted (h : macaroonParseFirstPartyCaveat limits caveat = some limits') :
    Restricted limits limits' caveat := by
  rw [macaroonParseFirstPartyCaveat] at h
  split at h
  · next activities hd =>
    rw [labelled_eq_some.mp hd]
    exact restricted_activity h
  split at h
  · next text hd =>
    rw [labelled_eq_some.mp hd]
    exact restricted_before h
  split at h
  · next path hd =>
    rw [labelled_eq_some.mp hd]
    exact restricted_path h
  · cases h

/-! ## All caveats -/

/-- The limits are those of the caveats -/
structure Limited (limits : MacaroonLimits) (caveats : List Bytes) : Prop where
  sound : limits.Sound
  seen : limits.activitySeen = caveats.any isActivity
  permits : ∀ perm p, limits.Permits perm p ↔ ∀ c ∈ caveats, caveatPermits c perm p = true
  live : ∀ t, limits.Live t ↔ ∀ c ∈ caveats, caveatLive c t = true

theorem limited_zero : Limited .zero [] where
  sound := MacaroonLimits.sound_zero
  seen := rfl
  permits perm p := by simp [MacaroonLimits.Permits, MacaroonLimits.zero]
  live t := by simp [MacaroonLimits.Live, MacaroonLimits.zero]

theorem Limited.step (h : Limited limits caveats) (hr : Restricted limits limits' caveat) :
    Limited limits' (caveats ++ [caveat]) where
  sound := hr.sound h.sound
  seen := by rw [hr.seen, h.seen]; simp
  permits perm p := by
    rw [hr.permits, h.permits, forall_mem_append, forall_mem_singleton]
  live t := by rw [hr.live, h.live, forall_mem_append, forall_mem_singleton]

theorem Limited.run {more : List Bytes} (h : Limited limits caveats)
    (hrun : more.foldlM macaroonParseFirstPartyCaveat limits = some limits') :
    Limited limits' (caveats ++ more) := by
  induction more generalizing limits caveats with
  | nil =>
    cases hrun
    rwa [append_nil]
  | cons c more ih =>
    rw [foldlM_cons, Option.bind_eq_bind, Option.bind_eq_some_iff] at hrun
    obtain ⟨limits₁, hlimits₁, hrun⟩ := hrun
    have hrest := ih (h.step (restricted hlimits₁)) hrun
    rwa [append_assoc] at hrest

variable {env : MacaroonEnv} {key bin : Bytes} {maxTp : Option ℕ} {r : MacaroonParsed}

theorem Accepted.limited (h : Accepted env key maxTp bin r) :
    Limited r.limits (macaroonCaveats bin) := by
  simpa using limited_zero.run h.caveats

/-! ## The claims of a macaroon -/

theorem MacaroonLimits.Sound.scopes (h : limits.Sound) :
    tokenParseScopes limits.scopeBuf maxTokenScopes = limits.mask.scopes := by
  have hscopes := rebuild_scopes limits.mask
  rw [h.scopeBuf] at hscopes
  exact Option.some.inj hscopes

/-- Claims that say what the limits allow -/
structure ClaimsOf (claims : TokenClaims) (limits : MacaroonLimits) : Prop where
  uniform : ∃ path, Uniform claims.scopes path
  allow_iff : ∀ perm p, ScopesAllow claims.scopes perm p ↔
    limits.activitySeen = true ∧ limits.Permits perm p
  exp : claims.exp = limits.exp

/-- The scopes of the claims are those of the limits. -/
theorem finalizeScopes_spec (st : MacaroonState) (h : st.limits.Sound) :
    ∃ claims, macaroonFinalizeScopes st = some claims ∧ ClaimsOf claims st.limits := by
  have hmask : ∀ perm, st.limits.mask.has perm = true ↔
      st.limits.activitySeen = true ∧ st.limits.activityMask.has perm = true := by
    intro perm
    rw [MacaroonLimits.mask]
    cases st.limits.activitySeen with
    | true => simp
    | false => cases perm <;> simp [MacaroonActivity.has, MacaroonActivity.empty]
  have hallow : ∀ perm p, (st.limits.mask.has perm = true ∧
      ∀ path ∈ st.limits.pathCaveats, tokenScopePathMatches path p = true) ↔
      st.limits.activitySeen = true ∧ st.limits.Permits perm p := by
    intro perm p
    rw [hmask, MacaroonLimits.Permits]
    tauto
  rw [macaroonFinalizeScopes, h.scopes]
  simp only
  split
  · next hnil =>
    refine ⟨_, rfl, ⟨[slash], st.limits.mask.uniform⟩, fun perm p => ?_, rfl⟩
    rw [← hallow, MacaroonActivity.allow_iff, hnil]
    simp
  · obtain ⟨claims, hclaims, hn⟩ := applyPathCaveats_spec
      { TokenClaims.zero with
        sub := st.sub
        iss := st.iss
        exp := st.limits.exp
        scopeRaw := st.limits.scopeBuf
        scopes := st.limits.mask.scopes } st.limits.mask.uniform h.paths
    refine ⟨claims, hclaims, hn.uniform, fun perm p => ?_, hn.exp⟩
    rw [hn.allow_iff, ← hallow, MacaroonActivity.allow_iff]

theorem Accepted.claimsOf (h : Accepted env key maxTp bin r) : ClaimsOf r.claims r.limits := by
  obtain ⟨st, hlimits, hclaims⟩ := h.claims
  obtain ⟨claims, hclaims', hof⟩ := finalizeScopes_spec st (hlimits ▸ h.limited.sound)
  rw [hclaims] at hclaims'
  cases hclaims'
  rwa [hlimits] at hof

/-! ## A discharge narrows the claims -/

/-- The claims after a discharge with these caveats -/
structure Discharged (claims claims' : TokenClaims) (caveats : List Bytes) : Prop where
  uniform : ∃ path, Uniform claims'.scopes path
  allow_iff : ∀ perm p, ScopesAllow claims'.scopes perm p ↔
    ScopesAllow claims.scopes perm p ∧ ∀ c ∈ caveats, caveatPermits c perm p = true
  exp : ∀ t, t < claims'.exp ↔ t < claims.exp ∧ ∀ c ∈ caveats, caveatLive c t = true
  ne_zero : claims'.exp ≠ 0

theorem Accepted.exp_min (h : Accepted env key maxTp bin r) {exp : ℤ} (hexp : exp ≠ 0) :
    (∀ t, t < (if r.limits.beforeSeen = true ∧ (exp = 0 ∨ r.claims.exp < exp)
        then r.claims.exp else exp) ↔
      t < exp ∧ ∀ c ∈ macaroonCaveats bin, caveatLive c t = true) ∧
    (if r.limits.beforeSeen = true ∧ (exp = 0 ∨ r.claims.exp < exp)
      then r.claims.exp else exp) ≠ 0 := by
  have hlive := h.limited.live
  rw [h.claimsOf.exp]
  cases hseen : r.limits.beforeSeen with
  | false =>
    refine ⟨fun t => ?_, by simpa using hexp⟩
    rw [← hlive, MacaroonLimits.Live, hseen]
    simp
  | true =>
    obtain ⟨now, -, hnow⟩ := h.live hseen
    refine ⟨fun t => ?_, ?_⟩
    · rw [← hlive, MacaroonLimits.Live, hseen]
      simp only [true_and, hexp, false_or, true_implies]
      split <;> omega
    · split <;> omega

/-- A discharge takes off the claims what its caveats take. -/
theorem intersectDischargeClaims_spec {claims : TokenClaims} {path : Bytes}
    (h : Accepted env key maxTp bin r) (hu : Uniform claims.scopes path)
    (hexp : claims.exp ≠ 0) :
    ∃ claims', macaroonIntersectDischargeClaims claims r = some claims' ∧
      Discharged claims claims' (macaroonCaveats bin) := by
  obtain ⟨hmin, hne⟩ := h.exp_min hexp
  have hpermits := h.limited.permits
  have hbase : (if r.limits.beforeSeen = true ∧ (claims.exp = 0 ∨ r.claims.exp < claims.exp)
      then { claims with exp := r.claims.exp } else claims) =
      { claims with exp := if r.limits.beforeSeen = true ∧
          (claims.exp = 0 ∨ r.claims.exp < claims.exp) then r.claims.exp else claims.exp } := by
    split <;> rfl
  unfold macaroonIntersectDischargeClaims
  simp only
  rw [hbase]
  generalize (if r.limits.beforeSeen = true ∧ (claims.exp = 0 ∨ r.claims.exp < claims.exp)
    then r.claims.exp else claims.exp) = exp at hmin hne
  split
  · next hseen =>
    obtain ⟨path', hr⟩ := h.claimsOf.uniform
    obtain ⟨claims', hclaims', hn⟩ := intersectClaimScopes_spec
      { claims with exp } hu hr
    refine ⟨claims', hclaims', hn.uniform, fun perm p => ?_, by rwa [hn.exp], by rwa [hn.exp]⟩
    rw [hn.allow_iff, h.claimsOf.allow_iff, hpermits, hseen]
    simp
  next hseen =>
  have hpaths : ∀ perm p, (∀ path ∈ r.limits.pathCaveats, tokenScopePathMatches path p = true) ↔
      ∀ c ∈ macaroonCaveats bin, caveatPermits c perm p = true := by
    intro perm p
    rw [← hpermits, MacaroonLimits.Permits]
    simp [hseen]
  split
  · next hnil =>
    refine ⟨_, rfl, ⟨path, hu⟩, fun perm p => ?_, hmin, hne⟩
    rw [← hpaths, hnil]
    simp
  · obtain ⟨claims', hclaims', hn⟩ := applyPathCaveats_spec
      { claims with exp } hu h.limited.sound.paths
    refine ⟨claims', hclaims', hn.uniform, fun perm p => ?_, by rwa [hn.exp], by rwa [hn.exp]⟩
    rw [hn.allow_iff, hpaths perm]

end BrixCache

/-!
## Bundles

A bundle is accepted where every third-party caveat of its root finds a discharge of its own.
-/

namespace BrixCache

open List

variable {env : MacaroonEnv}

/-! ### Texts -/

/-- The first-party caveats of the macaroon in a text. -/
def tokenCaveats (env : MacaroonEnv) (token : Bytes) : List Bytes :=
  ((b64urlDecode env.evpDecode token b64DecodeMax).map macaroonCaveats).getD []

theorem tokenCaveats_of_decode {token bin : Bytes}
    (h : b64urlDecode env.evpDecode token b64DecodeMax = some bin) :
    tokenCaveats env token = macaroonCaveats bin := by
  rw [tokenCaveats, h]
  rfl

/-- The macaroon in a text answers a third-party caveat: it names the caveat, and its own
chain verifies under the key in the caveat. -/
def Answers (env : MacaroonEnv) (tp : MacaroonTp) (token : Bytes) : Prop :=
  ∃ key bin, macaroonDecryptVid env tp = some key ∧
    b64urlDecode env.evpDecode token b64DecodeMax = some bin ∧
    macaroonCandidateMatchesCid tp.cid bin.length bin = true ∧ ChainVerifies env key bin

/-! ### One discharge -/

variable {cid key token : Bytes} {r : MacaroonParsed} {tp : MacaroonTp}
  {tps : List MacaroonTp} {discharges : List Bytes} {used : List ℕ}
  {claims claims' claims'' : TokenClaims}

theorem discharge_accepted (h : macaroonDischarge env cid key token = some r) :
    ∃ bin, b64urlDecode env.evpDecode token b64DecodeMax = some bin ∧
      macaroonCandidateMatchesCid cid bin.length bin = true ∧ Accepted env key none bin r := by
  rw [macaroonDischarge] at h
  split at h
  · cases h
  next bin hbin =>
  split at h
  · cases h
  next hc =>
  exact ⟨bin, hbin, by simpa using (not_or.mp hc).2, accepted h⟩

theorem findDischarge_some {l : List (Bytes × ℕ)} {i : ℕ}
    (h : macaroonFindDischarge env cid key used l = some (i, r)) :
    ∃ token, (token, i) ∈ l ∧ i ∉ used ∧ macaroonDischarge env cid key token = some r := by
  induction l with
  | nil => cases h
  | cons q l ih =>
    obtain ⟨token, j⟩ := q
    rw [macaroonFindDischarge] at h
    split at h
    · obtain ⟨t, ht, hrest⟩ := ih h
      exact ⟨t, mem_cons_of_mem _ ht, hrest⟩
    next hused =>
    split at h
    · next result hresult =>
      cases h
      exact ⟨token, mem_cons_self, hused, hresult⟩
    · obtain ⟨t, ht, hrest⟩ := ih h
      exact ⟨t, mem_cons_of_mem _ ht, hrest⟩

/-! ### All discharges -/

def caveatsAt (env : MacaroonEnv) (discharges : List Bytes) (i : ℕ) :
    List Bytes :=
  (discharges[i]?).elim [] (tokenCaveats env)

theorem Discharged.refl {path : Bytes} (hu : Uniform claims.scopes path)
    (hexp : claims.exp ≠ 0) : Discharged claims claims [] where
  uniform := ⟨path, hu⟩
  allow_iff perm p := by simp
  exp t := by simp
  ne_zero := hexp

theorem Discharged.trans {caveats more : List Bytes}
    (h : Discharged claims claims' caveats) (h' : Discharged claims' claims'' more) :
    Discharged claims claims'' (caveats ++ more) where
  uniform := h'.uniform
  allow_iff perm p := by rw [h'.allow_iff, h.allow_iff, and_assoc, forall_mem_append]
  exp t := by rw [h'.exp, h.exp, and_assoc, forall_mem_append]
  ne_zero := h'.ne_zero

/-- Each third-party caveat is answered by a discharge of its own. -/
theorem validateEach_spec {path : Bytes} (hu : Uniform claims.scopes path)
    (hexp : claims.exp ≠ 0)
    (h : macaroonValidateEach env discharges used claims tps = some claims') :
    ∃ is : List ℕ, is.Nodup ∧ (∀ i ∈ is, i < discharges.length ∧ i ∉ used) ∧
      List.Forall₂ (fun tp i => ∃ token, discharges[i]? = some token ∧ Answers env tp token)
        tps is ∧
      Discharged claims claims' (is.flatMap (caveatsAt env discharges)) := by
  induction tps generalizing used claims path with
  | nil =>
    cases h
    exact ⟨[], nodup_nil, nofun, List.Forall₂.nil, Discharged.refl hu hexp⟩
  | cons tp tps ih =>
    rw [macaroonValidateEach] at h
    split at h
    · cases h
    next key hkey =>
    split at h
    · cases h
    next i r hfind =>
    split at h
    · cases h
    next claims₁ hclaims₁ =>
    obtain ⟨token, hmem, hfresh, hdischarge⟩ := findDischarge_some hfind
    obtain ⟨bin, hbin, hcid, hacc⟩ := discharge_accepted hdischarge
    obtain ⟨claims₁', hclaims₁', hd⟩ := intersectDischargeClaims_spec hacc hu hexp
    rw [hclaims₁] at hclaims₁'
    cases hclaims₁'
    obtain ⟨path₁, hu₁⟩ := hd.uniform
    obtain ⟨is, hnodup, hunused, hall, hrest⟩ := ih hu₁ hd.ne_zero h
    have htoken : discharges[i]? = some token := mem_zipIdx_iff_getElem?.mp hmem
    refine ⟨i :: is, nodup_cons.mpr ⟨fun hi => ?_, hnodup⟩, ?_, ?_, ?_⟩
    · exact (hunused i hi).2 mem_cons_self
    · intro j hj
      obtain rfl | hj := mem_cons.mp hj
      · exact ⟨(List.getElem?_eq_some_iff.mp htoken).1, hfresh⟩
      · exact ⟨(hunused j hj).1, fun hused => (hunused j hj).2 (mem_cons_of_mem _ hused)⟩
    · exact .cons ⟨token, htoken, key, bin, hkey, hbin, hcid, hacc.verifies⟩ hall
    · have hcaveats : caveatsAt env discharges i = macaroonCaveats bin := by
        rw [caveatsAt, htoken]
        exact tokenCaveats_of_decode hbin
      rw [flatMap_cons, hcaveats]
      exact hd.trans hrest

theorem mem_caveatsAt {is : List ℕ} {c : Bytes} (hnodup : is.Nodup)
    (hlt : ∀ i ∈ is, i < discharges.length) (hlen : is.length = discharges.length) :
    c ∈ is.flatMap (caveatsAt env discharges) ↔ c ∈ discharges.flatMap (tokenCaveats env) := by
  have hsub : is ⊆ range discharges.length := fun j hj => mem_range.mpr (hlt j hj)
  have hperm := (hnodup.subperm hsub).perm_of_length_le (by rw [length_range, hlen])
  simp only [mem_flatMap, hperm.mem_iff, mem_range]
  constructor
  · rintro ⟨i, hi, hc⟩
    rw [caveatsAt, getElem?_eq_getElem hi] at hc
    exact ⟨discharges[i], getElem_mem hi, hc⟩
  · rintro ⟨token, htoken, hc⟩
    obtain ⟨i, hi⟩ := mem_iff_getElem?.mp htoken
    refine ⟨i, (List.getElem?_eq_some_iff.mp hi).1, ?_⟩
    rw [caveatsAt, hi]
    exact hc

/-! ### The bundle -/

/-- The caveats of all tokens of a bundle. -/
def bundleCaveats (env : MacaroonEnv) (token : Bytes) : List Bytes :=
  (Words.words 32 token).flatMap (tokenCaveats env)

/-- How a bundle is accepted: the root parsed, a discharge for each third-party caveat -/
structure BundleAccepted (env : MacaroonEnv) (rootKey token : Bytes)
    (claims : TokenClaims) (root : Bytes) (discharges : List Bytes)
    (parsed : MacaroonParsed) : Prop where
  words : Words.words 32 token = root :: discharges
  accepted : ∃ bin, b64urlDecode env.evpDecode root b64DecodeMax = some bin ∧
    macaroonParseCore env rootKey (some macaroonMaxTpCaveats) bin = some parsed ∧
    Accepted env rootKey (some macaroonMaxTpCaveats) bin parsed
  length : discharges.length = parsed.tps.length
  validated : macaroonValidateEach env discharges [] parsed.claims parsed.tps = some claims

variable {rootKey root : Bytes} {parsed : MacaroonParsed}

theorem validateBundle_eq (hwords : Words.words 32 token = root :: discharges)
    (hfew : discharges.length ≤ macaroonMaxDischarges) :
    macaroonValidateBundle env rootKey token =
      (b64urlDecode env.evpDecode root b64DecodeMax).bind fun bin =>
        (macaroonParseCore env rootKey (some macaroonMaxTpCaveats) bin).bind fun parsed =>
          macaroonValidateDischarges env discharges parsed.tps parsed.claims := by
  have hsize : ¬(macaroonMaxDischarges + 1 < (root :: discharges).length ∨
      root :: discharges = []) := by
    rintro (hlong | hnil)
    · rw [length_cons] at hlong
      omega
    · cases hnil
  rw [macaroonValidateBundle, macaroonBundleTokenize]
  simp only [hwords, if_neg hsize]
  cases b64urlDecode env.evpDecode root b64DecodeMax with
  | none => rfl
  | some bin =>
    simp only [Option.bind_some]
    cases macaroonParseCore env rootKey (some macaroonMaxTpCaveats) bin <;> rfl

theorem words_of_validateBundle
    (h : (macaroonValidateBundle env rootKey token).isSome = true) :
    ∃ root discharges, Words.words 32 token = root :: discharges ∧
      discharges.length ≤ macaroonMaxDischarges := by
  cases hwords : Words.words 32 token with
  | nil => simp [macaroonValidateBundle, macaroonBundleTokenize, hwords] at h
  | cons root discharges =>
    refine ⟨root, discharges, rfl, ?_⟩
    by_contra hlong
    have hsize : macaroonMaxDischarges + 1 < (root :: discharges).length := by
      rw [length_cons]
      omega
    simp only [macaroonValidateBundle, macaroonBundleTokenize, hwords,
      if_pos (.inl hsize : _ ∨ root :: discharges = []), Option.isSome_none] at h
    cases h

theorem bundleAccepted (h : macaroonValidateBundle env rootKey token = some claims) :
    ∃ root discharges parsed,
      BundleAccepted env rootKey token claims root discharges parsed := by
  obtain ⟨root, discharges, hwords, hfew⟩ := words_of_validateBundle (by rw [h]; rfl)
  rw [validateBundle_eq hwords hfew] at h
  obtain ⟨bin, hbin, h⟩ := Option.bind_eq_some_iff.mp h
  obtain ⟨parsed, hparsed, h⟩ := Option.bind_eq_some_iff.mp h
  rw [macaroonValidateDischarges] at h
  split at h
  · cases h
  · next hlen => exact ⟨root, discharges, parsed, hwords,
      ⟨bin, hbin, hparsed, BrixCache.accepted hparsed⟩, not_not.mp hlen, h⟩

theorem BundleAccepted.exp_ne_zero
    (h : BundleAccepted env rootKey token claims root discharges parsed) :
    parsed.claims.exp ≠ 0 := by
  obtain ⟨bin, -, -, hacc⟩ := h.accepted
  obtain ⟨now, -, hnow⟩ := hacc.live (hacc.beforeSeen rfl)
  rw [hacc.claimsOf.exp]
  omega

theorem BundleAccepted.claims_spec
    (h : BundleAccepted env rootKey token claims root discharges parsed) :
    (∃ path, Uniform claims.scopes path) ∧
    (∀ perm p, ScopesAllow claims.scopes perm p ↔
      (tokenCaveats env root).any isActivity = true ∧
        ∀ c ∈ bundleCaveats env token, caveatPermits c perm p = true) ∧
    ∀ t, t < claims.exp ↔ ∀ c ∈ bundleCaveats env token, caveatLive c t = true := by
  obtain ⟨bin, hbin, -, hacc⟩ := h.accepted
  obtain ⟨path, hu⟩ := hacc.claimsOf.uniform
  obtain ⟨is, hnodup, hlt, hall, hd⟩ := validateEach_spec hu h.exp_ne_zero h.validated
  have hlen : is.length = discharges.length := by rw [h.length, hall.length_eq]
  have hcaveats : ∀ P : Bytes → Prop,
      (∀ c ∈ bundleCaveats env token, P c) ↔
        (∀ c ∈ macaroonCaveats bin, P c) ∧
          ∀ c ∈ is.flatMap (caveatsAt env discharges), P c := by
    intro P
    rw [bundleCaveats, h.words, flatMap_cons, forall_mem_append,
      tokenCaveats_of_decode hbin]
    simp only [mem_caveatsAt hnodup (fun i hi => (hlt i hi).1) hlen]
  refine ⟨hd.uniform, fun perm p => ?_, fun t => ?_⟩
  · rw [hd.allow_iff, hcaveats, hacc.claimsOf.allow_iff, hacc.limited.permits,
      hacc.limited.seen, tokenCaveats_of_decode hbin, and_assoc]
  · have hlive := hacc.limited.live t
    rw [MacaroonLimits.Live, hacc.beforeSeen rfl] at hlive
    rw [hd.exp, hcaveats, hacc.claimsOf.exp, ← hlive]
    simp

/-- The first-party caveats of the root of a bundle. -/
def rootCaveats (env : MacaroonEnv) (token : Bytes) : List Bytes :=
  ((Words.words 32 token).head?.map (tokenCaveats env)).getD []

/-- What the claims of a bundle allow, by its caveats -/
structure BundleAllows (env : MacaroonEnv) (token : Bytes) (claims : TokenClaims) :
    Prop where
  uniform : ∃ path, Uniform claims.scopes path
  allow_iff : ∀ perm p, ScopesAllow claims.scopes perm p ↔
    (rootCaveats env token).any isActivity = true ∧
      ∀ c ∈ bundleCaveats env token, caveatPermits c perm p = true
  exp : ∀ t, t < claims.exp ↔ ∀ c ∈ bundleCaveats env token, caveatLive c t = true

theorem bundleAllows (h : macaroonValidateBundle env rootKey token = some claims) :
    BundleAllows env token claims := by
  obtain ⟨root, discharges, parsed, hacc⟩ := bundleAccepted h
  obtain ⟨hu, hallow, hexp⟩ := hacc.claims_spec
  have hroot : tokenCaveats env root = rootCaveats env token := by
    rw [rootCaveats, hacc.words]
    rfl
  exact ⟨hu, fun perm p => by rw [hallow, hroot], hexp⟩

theorem BundleAllows.checkWrite_iff (h : BundleAllows env token claims) (p : Bytes) :
    tokenCheckWrite claims.scopes p = true ↔
      ScopesAllow claims.scopes .write p ∨ ScopesAllow claims.scopes .modify p := by
  obtain ⟨path, hu⟩ := h.uniform
  exact BrixCache.checkWrite_iff fun s hs => (hu.one s hs).2

theorem BundleAllows.checks_iff (h : BundleAllows env token claims) (p : Bytes) :
    (tokenCheckRead claims.scopes p = true ∨ tokenCheckWrite claims.scopes p = true) ↔
      ∃ perm, ScopesAllow claims.scopes perm p := by
  rw [checkRead_iff, h.checkWrite_iff]
  constructor
  · rintro (hr | hw | hm)
    · exact ⟨.read, hr⟩
    · exact ⟨.write, hw⟩
    · exact ⟨.modify, hm⟩
  · rintro ⟨perm, hperm⟩
    cases perm with
    | read => exact .inl hperm
    | write => exact .inr (.inl hperm)
    | modify => exact .inr (.inr hperm)

end BrixCache
