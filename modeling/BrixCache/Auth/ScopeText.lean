import BrixCache.Auth.Attenuation

/-!
# The scopes of a macaroon as text

The claims of a macaroon have its scopes twice: as entries, and in `scope_raw` as the
text that the parser of `scopes.c` reads. The text puts a space between entries, and a
path may have spaces: such a path is read up to its first space, as a scope of its own
that covers more, and what is behind the space may be read as another scope.
-/

namespace BrixCache

open List

/-! ## What is written -/

/-- The text of the claims is written from their scopes. -/
def Texted (claims : TokenClaims) : Prop :=
  macaroonScopeRawFrom [] (claims.scopes.flatMap TokenScope.entries) = some claims.scopeRaw

variable {claims claims' : TokenClaims} {scopes : List TokenScope} {s : TokenScope}
  {a path p u raw out : Bytes} {es paths : List Bytes} {perm : Permission}

theorem rebuildScopeRaw_texted (h : macaroonRebuildScopeRaw claims = some claims') :
    Texted claims' := by
  rw [macaroonRebuildScopeRaw, Option.map_eq_some_iff] at h
  obtain ⟨scopeRaw, hraw, rfl⟩ := h
  exact hraw

theorem narrowScopes_unchanged (h : (macaroonNarrowScopes scopes paths).2 = false) :
    (macaroonNarrowScopes scopes paths).1 = scopes := by
  induction paths generalizing scopes with
  | nil => rfl
  | cons a paths ih =>
    rw [macaroonNarrowScopes] at h ⊢
    obtain ⟨hfirst, hrest⟩ := Bool.or_eq_false_iff.mp h
    have hsame : (scopes.map fun s => macaroonApplyPathToScope s a).map (·.1) = scopes := by
      rw [map_map]
      conv_rhs => rw [← map_id scopes]
      apply map_congr_left
      intro s hs
      have hs : (macaroonApplyPathToScope s a).2 = false := by
        have hany := any_eq_false.mp hfirst _ (mem_map_of_mem hs)
        simpa using hany
      rw [Function.comp_apply, macaroonApplyPathToScope] at *
      split at hs
      · split at hs
        · next hm heq => rw [if_pos hm, if_pos heq, id]
        · cases hs
      · split at hs
        · next hm hm' => rw [if_neg hm, if_pos hm', id]
        · cases hs
    simp only [hsame] at hrest ⊢
    exact ih hrest

theorem applyPathCaveats_texted (h : macaroonApplyPathCaveats claims paths = some claims')
    (htext : Texted claims) : Texted claims' := by
  unfold macaroonApplyPathCaveats at h
  simp only at h
  split at h
  · exact rebuildScopeRaw_texted h
  · next hsame =>
    cases h
    rw [Texted, narrowScopes_unchanged (by simpa using hsame)]
    exact htext

theorem intersectClaimScopes_texted {restriction : TokenClaims}
    (h : macaroonIntersectClaimScopes claims restriction = some claims') : Texted claims' := by
  rw [macaroonIntersectClaimScopes] at h
  split at h
  · cases h
  · exact rebuildScopeRaw_texted h

theorem rebuildActivityScopes_eq (mask : MacaroonActivity) :
    macaroonRebuildActivityScopes mask =
      macaroonScopeRawFrom [] (mask.scopes.flatMap TokenScope.entries) := by
  obtain ⟨r, w, m⟩ := mask
  cases r <;> cases w <;> cases m <;> decide

theorem finalizeScopes_texted {st : MacaroonState} (hsound : st.limits.Sound)
    (h : macaroonFinalizeScopes st = some claims) : Texted claims := by
  have hactivity : macaroonScopeRawFrom []
      ((tokenParseScopes st.limits.scopeBuf maxTokenScopes).flatMap TokenScope.entries) =
      some st.limits.scopeBuf := by
    rw [hsound.scopes, ← rebuildActivityScopes_eq]
    exact hsound.scopeBuf
  unfold macaroonFinalizeScopes at h
  simp only at h
  split at h
  · cases h
    exact hactivity
  · exact applyPathCaveats_texted h hactivity

variable {env : MacaroonEnv} {key rootKey token bin root : Bytes} {maxTp : Option ℕ}
  {r : MacaroonParsed} {discharges : List Bytes} {used : List ℕ} {tps : List MacaroonTp}

theorem Accepted.texted (h : Accepted env key maxTp bin r) : Texted r.claims := by
  obtain ⟨st, hlimits, hclaims⟩ := h.claims
  exact finalizeScopes_texted (hlimits ▸ h.limited.sound) hclaims

theorem intersectDischargeClaims_texted
    (h : macaroonIntersectDischargeClaims claims r = some claims') (htext : Texted claims) :
    Texted claims' := by
  unfold macaroonIntersectDischargeClaims at h
  simp only at h
  have hbase : Texted (if r.limits.beforeSeen ∧ (claims.exp = 0 ∨ r.claims.exp < claims.exp) then
      { claims with exp := r.claims.exp } else claims) := by
    split
    · exact htext
    · exact htext
  split at h
  · exact intersectClaimScopes_texted h
  · split at h
    · cases h
      exact hbase
    · exact applyPathCaveats_texted h hbase

theorem validateEach_texted
    (h : macaroonValidateEach env discharges used claims tps = some claims')
    (htext : Texted claims) : Texted claims' := by
  induction tps generalizing used claims with
  | nil =>
    cases h
    exact htext
  | cons tp tps ih =>
    rw [macaroonValidateEach] at h
    split at h
    · cases h
    split at h
    · cases h
    split at h
    · cases h
    next claims₁ hclaims₁ => exact ih h (intersectDischargeClaims_texted hclaims₁ htext)

theorem validateBundle_texted (h : macaroonValidateBundle env rootKey token = some claims) :
    Texted claims := by
  obtain ⟨root, discharges, parsed, hacc⟩ := bundleAccepted h
  obtain ⟨bin, -, -, haccepted⟩ := hacc.accepted
  exact validateEach_texted hacc.validated haccepted.texted

/-! ## What is read -/

theorem scopeRawFrom_eq (h : macaroonScopeRawFrom raw es = some out) (hraw : raw ≠ []) :
    out = raw ++ es.flatMap (32 :: ·) := by
  induction es generalizing raw with
  | nil =>
    cases h
    simp
  | cons e es ih =>
    rw [macaroonScopeRawFrom] at h
    simp only [length_pos_iff.mpr hraw, if_true] at h
    split at h
    · cases h
    · rw [ih h (by simp [hraw])]
      simp

theorem words_scopeRaw (h : macaroonScopeRawFrom [] es = some out) (hes : ∀ e ∈ es, e ≠ []) :
    Words.words 32 out = es.flatMap (Words.words 32) := by
  cases es with
  | nil =>
    cases h
    rfl
  | cons e es =>
    rw [macaroonScopeRawFrom] at h
    simp only [length_nil, Nat.lt_irrefl, if_false, append_nil, nil_append] at h
    split at h
    · cases h
    · rw [scopeRawFrom_eq h (hes e mem_cons_self), Words.words_append_flatMap, flatMap_cons]

theorem parseScope_entry {name : Bytes} (hname : 58 ∉ name) :
    tokenParseScope (name ++ 58 :: p) =
      some (tokenScopeSetPermission (tokenScopeCopyPath p) name) := by
  have hall : ∀ c ∈ name, decide (c ≠ 58) = true := fun c hc =>
    decide_eq_true fun heq => hname (heq ▸ hc)
  rw [tokenParseScope, if_pos (by simp), takeWhile_append_of_pos hall,
    dropWhile_append_of_pos hall]
  simp

/-- A scope, a permission at a time. -/
def TokenScope.parts (s : TokenScope) : List TokenScope :=
  (if s.read then [⟨s.path, true, false, false, false⟩] else []) ++
  (if s.write then [⟨s.path, false, true, false, false⟩] else []) ++
  (if s.create then [⟨s.path, false, false, true, false⟩] else []) ++
  if s.modify then [⟨s.path, false, false, false, true⟩] else []

theorem copyPath_of_scopePath (h : ScopePath path) : tokenScopeCopyPath path = path := by
  have hshort := h.short
  rw [tokenScopeCopyPath, if_neg h.proper.1, take_of_length_le (by omega)]

/-- The entries of a scope are read back as its parts. -/
theorem entries_read (hpath : ScopePath s.path) (hspace : 32 ∉ s.path) :
    (s.entries.flatMap (Words.words 32)).filterMap tokenParseScope = s.parts := by
  have hwords : ∀ name : Bytes, 32 ∉ name → name ≠ [] →
      Words.words 32 (name ++ 58 :: s.path) = [name ++ 58 :: s.path] := by
    intro name hname hne
    exact Words.words_eq_self (by simp [hname, hspace]) (by simp)
  have hread := hwords (ascii "storage.read") (by decide) (by decide)
  have hwrite := hwords (ascii "storage.write") (by decide) (by decide)
  have hcreate := hwords (ascii "storage.create") (by decide) (by decide)
  have hmodify := hwords (ascii "storage.modify") (by decide) (by decide)
  have hread' : tokenParseScope (ascii "storage.read" ++ 58 :: s.path) =
      some ⟨s.path, true, false, false, false⟩ := by
    rw [parseScope_entry (by decide), copyPath_of_scopePath hpath]
    rfl
  have hwrite' : tokenParseScope (ascii "storage.write" ++ 58 :: s.path) =
      some ⟨s.path, false, true, false, false⟩ := by
    rw [parseScope_entry (by decide), copyPath_of_scopePath hpath]
    rfl
  have hcreate' : tokenParseScope (ascii "storage.create" ++ 58 :: s.path) =
      some ⟨s.path, false, false, true, false⟩ := by
    rw [parseScope_entry (by decide), copyPath_of_scopePath hpath]
    rfl
  have hmodify' : tokenParseScope (ascii "storage.modify" ++ 58 :: s.path) =
      some ⟨s.path, false, false, false, true⟩ := by
    rw [parseScope_entry (by decide), copyPath_of_scopePath hpath]
    rfl
  rw [TokenScope.entries, TokenScope.parts]
  simp only [flatMap_append, filterMap_append]
  congr 1
  · congr 1
    · congr 1
      · cases s.read <;> simp [hread, hread']
      · cases s.write <;> simp [hwrite, hwrite']
    · cases s.create <;> simp [hcreate, hcreate']
  · cases s.modify <;> simp [hmodify, hmodify']

theorem TokenScope.length_parts (s : TokenScope) : s.parts.length = s.entries.length := by
  obtain ⟨q, r, w, c, m⟩ := s
  cases r <;> cases w <;> cases c <;> cases m <;> rfl

theorem TokenScope.entries_ne_nil {e : Bytes} (he : e ∈ s.entries) : e ≠ [] := by
  simp only [TokenScope.entries, mem_append] at he
  obtain ((he | he) | he) | he := he <;> split at he <;> simp at he <;> simp [he]

theorem Texted.read (h : Texted claims) (hu : Uniform claims.scopes path) (hspace : 32 ∉ path) :
    tokenParseScopes claims.scopeRaw maxTokenScopes = claims.scopes.flatMap TokenScope.parts := by
  have hne : ∀ e ∈ claims.scopes.flatMap TokenScope.entries, e ≠ [] := by
    intro e he
    obtain ⟨s, -, he⟩ := mem_flatMap.mp he
    exact s.entries_ne_nil he
  have hread : ∀ l : List TokenScope, (∀ s ∈ l, s.path = path) →
      ((l.flatMap TokenScope.entries).flatMap (Words.words 32)).filterMap tokenParseScope =
        l.flatMap TokenScope.parts := by
    intro l hl
    induction l with
    | nil => rfl
    | cons s l ih =>
      obtain ⟨hs, hl⟩ := forall_mem_cons.mp hl
      rw [flatMap_cons, flatMap_append, filterMap_append,
        entries_read (hs ▸ hu.scopePath) (hs ▸ hspace), ih hl, flatMap_cons]
  rw [tokenParseScopes, words_scopeRaw h hne, hread _ fun s hs => (hu.one s hs).1]
  -- there is room for all of them
  apply take_of_length_le
  have hfew := hu.few
  rw [length_flatMap] at hfew ⊢
  simp only [TokenScope.length_parts]
  rw [maxTokenScopes]
  omega

theorem allow_parts : ScopesAllow (scopes.flatMap TokenScope.parts) perm p ↔
    ScopesAllow scopes perm p := by
  have hone : ∀ s : TokenScope, (∃ t ∈ s.parts, t.has perm = true ∧
      tokenScopePathMatches t.path p = true) ↔
      s.has perm = true ∧ tokenScopePathMatches s.path p = true := by
    rintro ⟨q, r, w, c, m⟩
    cases perm <;> cases r <;> cases w <;> cases c <;> cases m <;>
      simp [TokenScope.parts, TokenScope.has]
  simp only [ScopesAllow, mem_flatMap]
  constructor
  · rintro ⟨t, ⟨s, hs, ht⟩, hallow⟩
    exact ⟨s, hs, (hone s).mp ⟨t, ht, hallow⟩⟩
  · rintro ⟨s, hs, hallow⟩
    obtain ⟨t, ht, hallow⟩ := (hone s).mpr hallow
    exact ⟨t, ⟨s, hs, ht⟩, hallow⟩

theorem parts_create (hs : s.create = false) {t : TokenScope} (ht : t ∈ s.parts) :
    t.create = false := by
  simp only [TokenScope.parts, mem_append, hs] at ht
  obtain ((ht | ht) | ht) | ht := ht <;> split at ht <;> simp_all

/-- What the checks let through on the text's scopes they let through on the entries. -/
def TextAgrees (claims : TokenClaims) : Prop :=
  ∀ p, tokenCheckRead (tokenParseScopes claims.scopeRaw maxTokenScopes) p =
      tokenCheckRead claims.scopes p ∧
    tokenCheckWrite (tokenParseScopes claims.scopeRaw maxTokenScopes) p =
      tokenCheckWrite claims.scopes p

theorem Texted.agrees (h : Texted claims) (hu : Uniform claims.scopes path) (hspace : 32 ∉ path) :
    TextAgrees claims := by
  intro p
  rw [h.read hu hspace]
  have hparts : ∀ t ∈ claims.scopes.flatMap TokenScope.parts, t.create = false := by
    intro t ht
    obtain ⟨s, hs, ht⟩ := mem_flatMap.mp ht
    exact parts_create (hu.one s hs).2 ht
  constructor
  · rw [Bool.eq_iff_iff, checkRead_iff, checkRead_iff, allow_parts]
  · rw [Bool.eq_iff_iff, checkWrite_iff hparts, checkWrite_iff fun s hs => (hu.one s hs).2,
      allow_parts, allow_parts]

/-! ## A path with a space -/

theorem space_trimSlash (h : 32 ∈ p) : 32 ∈ trimSlash p := by
  obtain heq | heq := trimSlash_cases p
  · rwa [heq]
  · rw [heq] at h
    simpa [slash] using h

theorem trimSlash_subset : trimSlash p ⊆ p := by
  intro c hc
  obtain heq | heq := trimSlash_cases p
  · rwa [heq] at hc
  · rw [heq]
    exact mem_append_left _ hc

theorem matches_self (p : Bytes) : tokenScopePathMatches p p = true := by
  rw [matches_iff]
  obtain heq | heq := trimSlash_cases p
  · exact .inr (.inl heq.symm)
  · exact .inr (.inr ⟨[], by rw [append_nil, ← heq]⟩)

theorem not_matches_of_space (hpath : 32 ∈ path) (hu : 32 ∉ u) :
    tokenScopePathMatches path u = false := by
  rw [Bool.eq_false_iff, Ne, matches_iff]
  have hroot : path ≠ [slash] := by
    rintro rfl
    simp [slash] at hpath
  have htrim := space_trimSlash hpath
  rintro (heq | heq | ⟨t, ht⟩)
  · exact hroot heq
  · exact hu (heq ▸ htrim)
  · exact hu (ht ▸ mem_append_left _ (mem_append_left _ htrim))

theorem matches_up_to_space {rest : Bytes} (ha : 32 ∉ a)
    (h : tokenScopePathMatches a (u ++ 32 :: rest) = true) : tokenScopePathMatches a u = true := by
  rw [matches_iff] at h ⊢
  have htrim : 32 ∉ trimSlash a := fun hmem => ha (trimSlash_subset hmem)
  obtain hroot | heq | hbelow := h
  · exact .inl hroot
  · exact absurd (heq ▸ by simp) htrim
  · have hslash : 32 ∉ trimSlash a ++ [slash] := by simpa [slash] using htrim
    have hup : u ++ [32] <+: u ++ 32 :: rest := ⟨rest, by simp⟩
    obtain hin | hover := List.prefix_or_prefix_of_prefix hbelow hup
    · obtain heq | hin := prefix_concat_iff.mp hin
      · exact absurd (heq ▸ by simp) hslash
      · exact .inr (.inr hin)
    · exact absurd (hover.subset (by simp)) hslash

theorem copyPath_matches (hu : u.length < scopePathMax) :
    tokenScopePathMatches (tokenScopeCopyPath u) u = true := by
  rw [tokenScopeCopyPath]
  split
  · rfl
  · rw [take_of_length_le (by omega)]
    exact matches_self u

theorem TokenScope.entries_form {e : Bytes} (he : e ∈ s.entries) (hs : s.create = false) :
    ∃ perm : Permission, ∃ name, e = name ++ 58 :: s.path ∧ 58 ∉ name ∧ 32 ∉ name ∧
      ∀ q, (tokenScopeSetPermission q name).has perm = true := by
  simp only [TokenScope.entries, hs, Bool.false_eq_true, if_false, append_nil,
    mem_append] at he
  obtain (he | he) | he := he
  · split at he
    · refine ⟨.read, ascii "storage.read", mem_singleton.mp he, by decide, by decide, ?_⟩
      exact fun q => rfl
    · cases he
  · split at he
    · refine ⟨.write, ascii "storage.write", mem_singleton.mp he, by decide, by decide, ?_⟩
      exact fun q => rfl
    · cases he
  · split at he
    · refine ⟨.modify, ascii "storage.modify", mem_singleton.mp he, by decide, by decide, ?_⟩
      exact fun q => rfl
    · cases he

/-- A blank in the path ends the first entry there. -/
theorem Texted.first_word {rest : Bytes} (h : Texted claims) (hu : Uniform claims.scopes path)
    (hlive : ∃ s ∈ claims.scopes, s.entries ≠ []) (hpath : path = u ++ 32 :: rest)
    (hspace : 32 ∉ u) :
    ∃ perm, ScopesAllow (tokenParseScopes claims.scopeRaw maxTokenScopes) perm u := by
  have hshort : u.length < scopePathMax := by
    have hshort := hu.scopePath.short
    rw [hpath, length_append] at hshort
    omega
  obtain ⟨s₀, hs₀, hne₀⟩ := hlive
  rw [Texted] at h
  cases hentries : claims.scopes.flatMap TokenScope.entries with
  | nil => exact absurd (flatMap_eq_nil_iff.mp hentries s₀ hs₀) hne₀
  | cons e es =>
    rw [hentries] at h
    have hall : ∀ e' ∈ e :: es, ∃ s ∈ claims.scopes, e' ∈ s.entries := by
      intro e' he'
      exact mem_flatMap.mp (hentries ▸ he')
    have hwords := words_scopeRaw h fun e' he' => by
      obtain ⟨s', -, he'⟩ := hall e' he'
      exact s'.entries_ne_nil he'
    obtain ⟨s, hs, he⟩ := hall e mem_cons_self
    obtain ⟨perm, name, rfl, hcolon, hname, hperm⟩ := s.entries_form he (hu.one s hs).2
    have hfirst : Words.words 32 (name ++ 58 :: s.path) =
        (name ++ 58 :: u) :: Words.words 32 rest := by
      rw [(hu.one s hs).1, hpath, ← cons_append, ← append_assoc]
      exact Words.words_append_sep (by simp [hname, hspace]) (by simp) rest
    refine ⟨perm, tokenScopeSetPermission (tokenScopeCopyPath u) name, ?_, hperm _,
      copyPath_matches hshort⟩
    rw [tokenParseScopes, hwords, flatMap_cons, hfirst, cons_append,
      filterMap_cons_some (parseScope_entry hcolon), maxTokenScopes]
    exact mem_cons_self

theorem checks_of_allow (h : ScopesAllow scopes perm p) :
    tokenCheckRead scopes p = true ∨ tokenCheckWrite scopes p = true := by
  obtain ⟨s, hs, hperm, hp⟩ := h
  cases perm with
  | read => exact .inl (checkRead_iff.mpr ⟨s, hs, hperm, hp⟩)
  | write =>
    have hw : s.write = true := hperm
    exact .inr (any_eq_true.mpr ⟨s, hs, by simp [hw, hp]⟩)
  | modify =>
    have hm : s.modify = true := hperm
    exact .inr (any_eq_true.mpr ⟨s, hs, by simp [hm, hp]⟩)

theorem Texted.disagrees (h : Texted claims) (hu : Uniform claims.scopes path)
    (hlive : ∃ s ∈ claims.scopes, s.entries ≠ []) (hspace : 32 ∈ path) :
    ¬TextAgrees claims := by
  intro hagrees
  obtain ⟨u, rest, hpath, hfirst⟩ := eq_append_cons_of_mem hspace
  have hno : ∀ perm, ¬ScopesAllow claims.scopes perm u := by
    intro perm
    rw [hu.allow_iff, not_matches_of_space hspace hfirst]
    simp
  obtain ⟨perm, hallow⟩ := h.first_word hu hlive hpath hfirst
  have hchecks := checks_of_allow hallow
  rw [(hagrees u).1, (hagrees u).2, checkRead_iff,
    checkWrite_iff fun s hs => (hu.one s hs).2] at hchecks
  obtain hr | hw | hm := hchecks
  · exact hno _ hr
  · exact hno _ hw
  · exact hno _ hm

/-! ## Which macaroons have such a path -/

/-- A `path:` caveat of the bundle has a space. -/
def SpacedCaveat (env : MacaroonEnv) (token : Bytes) : Prop :=
  ∃ c ∈ bundleCaveats env token, ∃ path, labelled "path:" c = some path ∧ 32 ∈ path

theorem permits_up_to_space {c rest : Bytes}
    (hc : ∀ path, labelled "path:" c = some path → 32 ∉ path)
    (h : caveatPermits c perm (u ++ 32 :: rest) = true) : caveatPermits c perm u = true := by
  rw [caveatPermits] at h ⊢
  cases hact : labelled "activity:" c with
  | some activities => simpa [hact] using h
  | none =>
    cases hpath : labelled "path:" c with
    | none => rfl
    | some a =>
      simp only [hact, hpath] at h ⊢
      exact matches_up_to_space (hc a hpath) h

theorem matches_of_permits {c : Bytes} (hc : labelled "path:" c = some a)
    (h : caveatPermits c perm p = true) : tokenScopePathMatches a p = true := by
  rw [labelled_eq_some.mp hc, caveatPermits, labelled_of_ne (by decide), labelled_append] at h
  exact h

theorem spaced_iff (h : BundleAllows env token claims) (hu : Uniform claims.scopes path)
    (hlive : ScopesAllow claims.scopes perm path) : 32 ∈ path ↔ SpacedCaveat env token := by
  obtain ⟨hseen, hall⟩ := (h.allow_iff perm path).mp hlive
  constructor
  · intro hspace
    by_contra hnone
    obtain ⟨u, rest, hpath, hfirst⟩ := eq_append_cons_of_mem hspace
    -- every caveat permits the path up to the space, and the scopes do not
    have hup : ScopesAllow claims.scopes perm u := by
      refine (h.allow_iff perm u).mpr ⟨hseen, fun c hc => ?_⟩
      have hpermits := hall c hc
      rw [hpath] at hpermits
      refine permits_up_to_space ?_ hpermits
      intro a ha hmem
      exact hnone ⟨c, hc, a, ha, hmem⟩
    have hcover := (hu.allow_iff.mp hup).2
    rw [not_matches_of_space hspace hfirst] at hcover
    cases hcover
  · rintro ⟨c, hc, a, ha, hspace⟩
    by_contra hno
    have hcover := matches_of_permits ha (hall c hc)
    rw [not_matches_of_space hspace hno] at hcover
    cases hcover

theorem entries_nil_of_not_allow (hu : Uniform scopes path)
    (hnone : ∀ perm p, ¬ScopesAllow scopes perm p) : scopes.flatMap TokenScope.entries = [] := by
  rw [flatMap_eq_nil_iff]
  intro s hs
  have hhas : ∀ perm, s.has perm = false := by
    intro perm
    by_contra hperm
    refine hnone perm path ⟨s, hs, by simpa using hperm, ?_⟩
    rw [(hu.one s hs).1]
    exact matches_self path
  have hr : s.read = false := hhas .read
  have hw : s.write = false := hhas .write
  have hm : s.modify = false := hhas .modify
  simp [TokenScope.entries, hr, hw, hm, (hu.one s hs).2]

/-- **The text and the entries agree** just where no `path:` caveat has a space, or the caveats
permit nothing. -/
theorem scopeText_agrees_iff (h : macaroonValidateBundle env rootKey token = some claims) :
    TextAgrees claims ↔
      ¬SpacedCaveat env token ∨ (rootCaveats env token).any isActivity = false ∨
        ∀ perm p, ∃ c ∈ bundleCaveats env token, caveatPermits c perm p = false := by
  have hallows := bundleAllows h
  have htext := validateBundle_texted h
  obtain ⟨path, hu⟩ := hallows.uniform
  by_cases hlive : ∃ perm p, ScopesAllow claims.scopes perm p
  · obtain ⟨perm, p, hp⟩ := hlive
    have hself : ScopesAllow claims.scopes perm path := by
      rw [hu.allow_iff] at hp ⊢
      exact ⟨hp.1, matches_self path⟩
    have hentries : ∃ s ∈ claims.scopes, s.entries ≠ [] := by
      obtain ⟨s, hs, hperm, -⟩ := hself
      refine ⟨s, hs, ?_⟩
      cases perm <;> simp_all [TokenScope.has, TokenScope.entries]
    have hnever : ¬((rootCaveats env token).any isActivity = false ∨
        ∀ perm p, ∃ c ∈ bundleCaveats env token, caveatPermits c perm p = false) := by
      obtain ⟨hseen, hall⟩ := (hallows.allow_iff perm path).mp hself
      rintro (hnone | hno)
      · rw [hnone] at hseen
        cases hseen
      · obtain ⟨c, hc, hno⟩ := hno perm path
        rw [hall c hc] at hno
        cases hno
    rw [or_iff_left hnever, ← spaced_iff hallows hu hself]
    constructor
    · exact fun hagrees hspace => htext.disagrees hu hentries hspace hagrees
    · exact fun hspace => htext.agrees hu hspace
  · -- nothing is allowed, and nothing is written
    simp only [not_exists] at hlive
    have hnever : (rootCaveats env token).any isActivity = false ∨
        ∀ perm p, ∃ c ∈ bundleCaveats env token, caveatPermits c perm p = false := by
      cases hseen : (rootCaveats env token).any isActivity with
      | false => exact .inl rfl
      | true =>
        refine .inr fun perm p => ?_
        by_contra hall
        refine hlive perm p ((hallows.allow_iff perm p).mpr ⟨hseen, fun c hc => ?_⟩)
        by_contra hno
        exact hall ⟨c, hc, Bool.eq_false_iff.mpr hno⟩
    refine iff_of_true (fun p => ?_) (.inr hnever)
    have hnil := entries_nil_of_not_allow hu hlive
    rw [Texted, hnil] at htext
    have hread : tokenCheckRead claims.scopes p = false := by
      rw [Bool.eq_false_iff, Ne, checkRead_iff]
      exact hlive .read p
    have hwrite : tokenCheckWrite claims.scopes p = false := by
      rw [Bool.eq_false_iff, Ne, checkWrite_iff fun s hs => (hu.one s hs).2]
      rintro (hw | hm)
      · exact hlive .write p hw
      · exact hlive .modify p hm
    rw [hread, hwrite, ← Option.some.inj htext]
    exact ⟨rfl, rfl⟩

/-! ## A space in a path -/

/-- The signature behind the path, from the secret `k`. -/
def spacedSig : Bytes :=
  [34, 203, 17, 67, 36, 129, 58, 124, 33, 52, 155, 166, 210, 133, 51, 233, 128, 125, 6, 103, 110,
   81, 146, 196, 71, 103, 118, 37, 234, 64, 89, 128]

def spacedEnv : MacaroonEnv := tableEnv
  [(ascii "k", ascii "u", identifierSig),
    (identifierSig, ascii "before:2100-01-01T00:00:00Z", expirySig),
    (expirySig, ascii "activity:LIST", listSig),
    (listSig, ascii "path:/a storage.write:/", spacedSig)]

/-- A macaroon that lists below `/a storage.write:/`. -/
def spacedPath : Bytes :=
  ["MDAxMWlkZW50", "aWZpZXIgdQow", "MDI0Y2lkIGJl", "Zm9yZToyMTAw", "LTAxLTAxVDAw",
   "OjAwOjAwWgow", "MDE2Y2lkIGFj", "dGl2aXR5OkxJ", "U1QKMDAyMGNp", "ZCBwYXRoOi9h",
   "IHN0b3JhZ2Uu", "d3JpdGU6Lwow", "MDJlc2lnbmF0", "dXJlICLLEUMk", "gTp8ITSbptKF",
   "M-mAfQZnblGS", "xEdndiXqQFmA"].flatMap ascii

/-- The one scope and its text. -/
def spacedClaims : TokenClaims :=
  expiryClaims "storage.read:/a storage.write:/"
    [⟨ascii "/a storage.write:/", true, false, false, false⟩]

theorem validate_spacedPath :
    macaroonValidateBundle spacedEnv (ascii "k") spacedPath = some spacedClaims := by
  decide +kernel

/-- The text lets everything be written. -/
theorem spaced_path_writes :
    ¬∀ (env : MacaroonEnv) (rootKey token : Bytes) (claims : TokenClaims),
      macaroonValidateBundle env rootKey token = some claims → TextAgrees claims := by
  intro h
  have hwrite := (h _ _ _ _ validate_spacedPath (ascii "/other")).2
  revert hwrite
  decide

theorem scopeText_agrees_iff_sample :
    TextAgrees spacedClaims ↔
      ¬SpacedCaveat spacedEnv spacedPath ∨
        (rootCaveats spacedEnv spacedPath).any isActivity = false ∨
        ∀ perm p, ∃ c ∈ bundleCaveats spacedEnv spacedPath, caveatPermits c perm p = false :=
  scopeText_agrees_iff validate_spacedPath

end BrixCache
