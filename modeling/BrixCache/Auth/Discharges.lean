import BrixCache.Auth.Bundle
import BrixCache.Lib.Base64
import BrixCache.Lib.Matching

/-!
# The order of discharges

The discharges of a bundle are matched to the caveats of its root one caveat after the
other, each to the first that is accepted. What an accepted bundle allows does not depend
on their order. Whether it is accepted could, if a discharge verified under the keys of
two caveats with one identifier.
-/

namespace BrixCache

open Matching List

variable {env : MacaroonEnv} {cid key token : Bytes} {r : MacaroonParsed} {tp : MacaroonTp}
  {tps : List MacaroonTp} {discharges : List Bytes} {used : List ℕ}
  {claims : TokenClaims}

/-! ## What a discharge is accepted for -/

/-- A token discharges a third-party caveat. -/
def DischargesCaveat (env : MacaroonEnv) (tp : MacaroonTp) (token : Bytes) : Prop :=
  ∃ key, macaroonDecryptVid env tp = some key ∧
    (macaroonDischarge env tp.cid key token).isSome = true

/-- No discharge is accepted for caveats of one identifier under two keys. -/
def KeysApart (env : MacaroonEnv) (tps : List MacaroonTp) (discharges : List Bytes) :
    Prop :=
  ∀ tp ∈ tps, ∀ tp' ∈ tps, tp.cid = tp'.cid → ∀ token ∈ discharges, ∀ key key',
    macaroonDecryptVid env tp = some key → macaroonDecryptVid env tp' = some key' →
    (macaroonDischarge env tp.cid key token).isSome = true →
    (macaroonDischarge env tp'.cid key' token).isSome = true → key = key'

theorem candidateMatchesCid_unique {cid cid' : Bytes} {fuel : ℕ} {bin : Bytes}
    (h : macaroonCandidateMatchesCid cid fuel bin = true)
    (h' : macaroonCandidateMatchesCid cid' fuel bin = true) : cid = cid' := by
  induction fuel generalizing bin with
  | zero => cases h
  | succ fuel ih =>
    rw [macaroonCandidateMatchesCid] at h h'
    split at h
    · cases h
    next hlen =>
    rw [if_neg hlen] at h'
    split at h
    · cases h
    next plen hplen =>
    rw [hplen] at h'
    simp only at h'
    split at h
    · cases h
    next hbounds =>
    rw [if_neg hbounds] at h'
    split at h
    · next identifier hidentifier =>
      rw [hidentifier] at h'
      exact (of_decide_eq_true h).symm.trans (of_decide_eq_true h')
    · next hother =>
      rw [hother] at h'
      exact ih h h'

theorem cid_unique {cid cid' key key' : Bytes}
    (h : (macaroonDischarge env cid key token).isSome = true)
    (h' : (macaroonDischarge env cid' key' token).isSome = true) : cid = cid' := by
  obtain ⟨r, hr⟩ := Option.isSome_iff_exists.mp h
  obtain ⟨r', hr'⟩ := Option.isSome_iff_exists.mp h'
  obtain ⟨bin, hbin, hcid, -⟩ := discharge_accepted hr
  obtain ⟨bin', hbin', hcid', -⟩ := discharge_accepted hr'
  rw [hbin] at hbin'
  cases hbin'
  exact candidateMatchesCid_unique hcid hcid'

theorem KeysApart.rows (h : KeysApart env tps discharges) {tp tp' : MacaroonTp}
    (htp : tp ∈ tps) (htp' : tp' ∈ tps) (htoken : token ∈ discharges)
    (hok : DischargesCaveat env tp token) (hok' : DischargesCaveat env tp' token)
    (other : Bytes) (hother : DischargesCaveat env tp other) :
    DischargesCaveat env tp' other := by
  obtain ⟨key, hkey, hsome⟩ := hok
  obtain ⟨key', hkey', hsome'⟩ := hok'
  have hcid := cid_unique hsome hsome'
  have hsame := h tp htp tp' htp' hcid token htoken key key' hkey hkey' hsome hsome'
  obtain ⟨key₁, hkey₁, hsome₁⟩ := hother
  rw [hkey] at hkey₁
  cases hkey₁
  exact ⟨key', hkey', by rwa [← hcid, ← hsame]⟩

/-! ## The search -/

def unused (discharges : List Bytes) (used : List ℕ) : List Bytes :=
  (discharges.zipIdx.filter fun q => q.2 ∉ used).map (·.1)

theorem unused_nil : unused discharges [] = discharges := by
  simp [unused]

theorem mem_unused {used : List ℕ} :
    token ∈ unused discharges used ↔ ∃ i, (token, i) ∈ discharges.zipIdx ∧ i ∉ used := by
  simp [unused]

theorem filter_unused_perm {l : List (Bytes × ℕ)} {i : ℕ} (hnodup : (l.map (·.2)).Nodup)
    (hmem : (token, i) ∈ l) (hi : i ∉ used) :
    (l.filter fun q => q.2 ∉ used).Perm
      ((token, i) :: l.filter fun q => q.2 ∉ i :: used) := by
  induction l with
  | nil => cases hmem
  | cons q l ih =>
    rw [map_cons, nodup_cons] at hnodup
    obtain rfl | hmem := mem_cons.mp hmem
    · -- the others have other places
      have hrest : (l.filter fun q => q.2 ∉ used) = l.filter fun q => q.2 ∉ i :: used := by
        refine filter_congr fun q hq => ?_
        have hne : q.2 ≠ i := fun heq => hnodup.1 (mem_map.mpr ⟨q, hq, heq⟩)
        simp [hne]
      rw [filter_cons_of_pos (by simpa using hi), filter_cons_of_neg (by simp),
        hrest]
    · have hne : q.2 ≠ i := fun heq => hnodup.1 (mem_map.mpr ⟨_, hmem, heq.symm⟩)
      have hperm := ih hnodup.2 hmem
      by_cases hq : q.2 ∈ used
      · rwa [filter_cons_of_neg (by simpa using hq),
          filter_cons_of_neg (by simp [hq])]
      · rw [filter_cons_of_pos (by simpa using hq),
          filter_cons_of_pos (by simp [hq, hne])]
        exact (hperm.cons q).trans (.swap _ q _)

theorem unused_perm {i : ℕ} (hmem : (token, i) ∈ discharges.zipIdx) (hi : i ∉ used) :
    (unused discharges used).Perm (token :: unused discharges (i :: used)) := by
  have hnodup : (discharges.zipIdx.map (·.2)).Nodup := by
    rw [zipIdx_map_snd]
    exact nodup_range'
  exact (filter_unused_perm hnodup hmem hi).map (·.1)

theorem findDischarge_isSome {l : List (Bytes × ℕ)} {i : ℕ} (hmem : (token, i) ∈ l)
    (hi : i ∉ used) (hsome : (macaroonDischarge env cid key token).isSome = true) :
    ∃ q, macaroonFindDischarge env cid key used l = some q := by
  induction l with
  | nil => cases hmem
  | cons q l ih =>
    obtain ⟨t, j⟩ := q
    rw [macaroonFindDischarge]
    obtain heq | hmem := mem_cons.mp hmem
    · cases heq
      rw [if_neg hi]
      obtain ⟨r, hr⟩ := Option.isSome_iff_exists.mp hsome
      exact ⟨(i, r), by rw [hr]⟩
    · split
      · exact ih hmem
      · split
        · exact ⟨_, rfl⟩
        · exact ih hmem

/-- A greedy search finds a matching wherever the keys are apart. -/
theorem validateEach_isSome {path : Bytes} (hu : Uniform claims.scopes path)
    (hexp : claims.exp ≠ 0) (hkeys : KeysApart env tps discharges) :
    (macaroonValidateEach env discharges used claims tps).isSome = true ↔
      Matchable (DischargesCaveat env) tps (unused discharges used) := by
  induction tps generalizing used claims path with
  | nil => simp [macaroonValidateEach, matchable_nil]
  | cons tp tps ih =>
    have hkeys' : KeysApart env tps discharges := fun t ht t' ht' =>
      hkeys t (mem_cons_of_mem _ ht) t' (mem_cons_of_mem _ ht')
    rw [macaroonValidateEach]
    constructor
    · intro h
      split at h
      · cases h
      next key hkey =>
      split at h
      · cases h
      next i r hfind =>
      obtain ⟨token, hmem, hi, hr⟩ := findDischarge_some hfind
      obtain ⟨bin, -, -, hacc⟩ := discharge_accepted hr
      obtain ⟨claims₁, hclaims₁, hd⟩ := intersectDischargeClaims_spec hacc hu hexp
      obtain ⟨path₁, hu₁⟩ := hd.uniform
      rw [hclaims₁] at h
      have hrest := (ih hu₁ hd.ne_zero hkeys').mp h
      exact hrest.cons ⟨key, hkey, by rw [hr]; rfl⟩ (unused_perm hmem hi)
    · intro h
      obtain ⟨token, hmem, key, hkey, hsome⟩ := h.exists_ok
      obtain ⟨i, hmem, hi⟩ := mem_unused.mp hmem
      obtain ⟨⟨j, r⟩, hfind⟩ := findDischarge_isSome hmem hi hsome
      obtain ⟨token', hmem', hj, hr⟩ := findDischarge_some hfind
      obtain ⟨bin, -, -, hacc⟩ := discharge_accepted hr
      obtain ⟨claims₁, hclaims₁, hd⟩ := intersectDischargeClaims_spec hacc hu hexp
      obtain ⟨path₁, hu₁⟩ := hd.uniform
      have hok : DischargesCaveat env tp token' := ⟨key, hkey, by rw [hr]; rfl⟩
      have htoken' : token' ∈ discharges :=
        mem_of_getElem? (mem_zipIdx_iff_getElem?.mp hmem')
      have hrest := h.exchange (unused_perm hmem' hj) fun tp' htp' hok' =>
        hkeys.rows mem_cons_self (mem_cons_of_mem _ htp') htoken' hok hok'
      simp only [hkey, hfind, hclaims₁]
      exact (ih hu₁ hd.ne_zero hkeys').mpr hrest

/-! ## The bundle -/

/-- The macaroon in a text is accepted as the root of a bundle. -/
def RootParsed (env : MacaroonEnv) (rootKey root : Bytes) (parsed : MacaroonParsed) :
    Prop :=
  ∃ bin, b64urlDecode env.evpDecode root b64DecodeMax = some bin ∧
    macaroonParseCore env rootKey (some macaroonMaxTpCaveats) bin = some parsed ∧
    ∀ tp ∈ parsed.tps, Captured env rootKey bin tp

/-- Every third-party caveat of the root is matched to a discharge of its own, and there
are no more discharges. -/
def Sound (env : MacaroonEnv) (rootKey root : Bytes) (discharges : List Bytes) :
    Prop :=
  ∃ parsed, RootParsed env rootKey root parsed ∧ discharges.length = parsed.tps.length ∧
    ∃ is : List ℕ, is.Nodup ∧
      List.Forall₂ (fun tp i => ∃ token, discharges[i]? = some token ∧ Answers env tp token)
        parsed.tps is

/-- The checks let the same through on both claims, and they live as long. -/
def SameAuthority (claims claims' : TokenClaims) : Prop :=
  (∀ p, tokenCheckRead claims.scopes p = tokenCheckRead claims'.scopes p ∧
    tokenCheckWrite claims.scopes p = tokenCheckWrite claims'.scopes p) ∧
  claims.exp = claims'.exp

variable {rootKey root token' : Bytes} {discharges' : List Bytes}
  {claims' : TokenClaims}

theorem sound (h : macaroonValidateBundle env rootKey token = some claims)
    (hwords : Words.words 32 token = root :: discharges) :
    Sound env rootKey root discharges := by
  obtain ⟨root', discharges', parsed, hacc⟩ := bundleAccepted h
  rw [hacc.words] at hwords
  cases hwords
  obtain ⟨bin, hbin, hparse, haccepted⟩ := hacc.accepted
  obtain ⟨path, hu⟩ := haccepted.claimsOf.uniform
  obtain ⟨is, hnodup, -, hall, -⟩ := validateEach_spec hu hacc.exp_ne_zero hacc.validated
  exact ⟨parsed, ⟨bin, hbin, hparse, haccepted.captured⟩, hacc.length, is, hnodup, hall⟩

/-- A bundle with its keys apart is accepted exactly if its discharges match its caveats. -/
theorem validateBundle_isSome (hwords : Words.words 32 token = root :: discharges)
    (hkeys : ∀ parsed, RootParsed env rootKey root parsed →
      KeysApart env parsed.tps discharges) :
    (macaroonValidateBundle env rootKey token).isSome = true ↔
      discharges.length ≤ macaroonMaxDischarges ∧
        ∃ parsed, RootParsed env rootKey root parsed ∧
          discharges.length = parsed.tps.length ∧
          Matchable (DischargesCaveat env) parsed.tps discharges := by
  by_cases hfew : discharges.length ≤ macaroonMaxDischarges
  swap
  · simp only [hfew, false_and, iff_false]
    intro h
    obtain ⟨root', discharges', hwords', hfew'⟩ := words_of_validateBundle h
    rw [hwords] at hwords'
    cases hwords'
    exact hfew hfew'
  rw [validateBundle_eq hwords hfew]
  simp only [hfew, true_and]
  cases hbin : b64urlDecode env.evpDecode root b64DecodeMax with
  | none => simp [RootParsed, hbin]
  | some bin =>
    cases hparsed : macaroonParseCore env rootKey (some macaroonMaxTpCaveats) bin with
    | none => simp [RootParsed, hbin, hparsed]
    | some parsed =>
      have hacc := accepted hparsed
      have hroot : RootParsed env rootKey root parsed := ⟨bin, hbin, hparsed, hacc.captured⟩
      have hunique : ∀ other, RootParsed env rootKey root other → other = parsed := by
        rintro other ⟨bin', hbin', hparsed', -⟩
        rw [hbin] at hbin'
        cases hbin'
        rw [hparsed] at hparsed'
        exact (Option.some.inj hparsed').symm
      obtain ⟨path, hu⟩ := hacc.claimsOf.uniform
      have hexp : parsed.claims.exp ≠ 0 := by
        obtain ⟨now, -, hnow⟩ := hacc.live (hacc.beforeSeen rfl)
        rw [hacc.claimsOf.exp]
        omega
      have hsome : (macaroonValidateEach env discharges [] parsed.claims parsed.tps).isSome = true ↔
          Matchable (DischargesCaveat env) parsed.tps (unused discharges []) :=
        validateEach_isSome hu hexp (hkeys parsed hroot)
      rw [unused_nil] at hsome
      simp only [hparsed, Option.bind_some, macaroonValidateDischarges]
      constructor
      · intro h
        split at h
        · cases h
        next heq => exact ⟨parsed, hroot, not_not.mp heq, hsome.mp h⟩
      · rintro ⟨other, hother, heq, hmatch⟩
        rw [hunique other hother] at heq hmatch
        rw [if_neg (not_not.mpr heq)]
        exact hsome.mpr hmatch

theorem bundleCaveats_perm (hwords : Words.words 32 token = root :: discharges)
    (hwords' : Words.words 32 token' = root :: discharges')
    (hperm : discharges.Perm discharges') (c : Bytes) :
    c ∈ bundleCaveats env token ↔ c ∈ bundleCaveats env token' := by
  rw [bundleCaveats, bundleCaveats, hwords, hwords', mem_flatMap, mem_flatMap]
  simp only [(hperm.cons root).mem_iff]

theorem sameAuthority (h : BundleAllows env token claims) (h' : BundleAllows env token' claims')
    (hroot : rootCaveats env token = rootCaveats env token')
    (hcaveats : ∀ c, c ∈ bundleCaveats env token ↔ c ∈ bundleCaveats env token') :
    SameAuthority claims claims' := by
  have hallow : ∀ perm p, ScopesAllow claims.scopes perm p ↔
      ScopesAllow claims'.scopes perm p := by
    intro perm p
    rw [h.allow_iff, h'.allow_iff, hroot]
    simp only [hcaveats]
  have hexp : ∀ t, t < claims.exp ↔ t < claims'.exp := by
    intro t
    rw [h.exp, h'.exp]
    simp only [hcaveats]
  refine ⟨fun p => ⟨?_, ?_⟩, ?_⟩
  · rw [Bool.eq_iff_iff, checkRead_iff, checkRead_iff]
    exact hallow .read p
  · rw [Bool.eq_iff_iff, h.checkWrite_iff, h'.checkWrite_iff, hallow, hallow]
  · have hle := hexp claims.exp
    have hle' := hexp claims'.exp
    omega

/-! ## Colliding keys -/

/-- A hash that collides on one message only, and a cipher that does nothing. -/
def collidingEnv : MacaroonEnv where
  hmac key message :=
    if message = ascii "path:/" then replicate 32 1
    else (key ++ replicate 32 0).take 32
  hmac_length key message := by
    split <;> simp
  aesDecrypt _ _ c := some c
  evpDecode := Base64.decode
  now := some 1750000000

/-- A root for `u` with two caveats for the identifier `c`. -/
def twoCaveats : Bytes :=
  ["MDAxMWlkZW50", "aWZpZXIgdQow", "MDI0Y2lkIGJl", "Zm9yZToyMTAw", "LTAxLTAxVDAw",
   "OjAwOjAwWgow", "MDBhY2lkIGMK", "MDAzOXZpZCBp", "aWlpaWlpaWlp", "aWlpaWlpYWFh",
   "YWFhYWFhYWFh", "YWFhYWFhYWFh", "YWFhYWFhYWFh", "YWEKMDAwYWNp", "ZCBjCjAwMzl2",
   "aWQgaWlpaWlp", "aWlpaWlpaWlp", "aWJiYmJiYmJi", "YmJiYmJiYmJi", "YmJiYmJiYmJi",
   "YmJiYmJiCjAw", "MmVzaWduYXR1", "cmUgawAAAAAA", "AAAAAAAAAAAA", "AAAAAAAAAAAA",
   "AAAAAAAAAAA"].flatMap ascii

/-- The same with `path:/` before them, which gives another signature. -/
def twoCaveatsOnPath : Bytes :=
  ["MDAxMWlkZW50", "aWZpZXIgdQow", "MDI0Y2lkIGJl", "Zm9yZToyMTAw", "LTAxLTAxVDAw",
   "OjAwOjAwWgow", "MDBmY2lkIHBh", "dGg6LwowMDBh", "Y2lkIGMKMDAz", "OXZpZCBpaWlp",
   "aWlpaWlpaWlp", "aWlpYWFhYWFh", "YWFhYWFhYWFh", "YWFhYWFhYWFh", "YWFhYWFhYWEK",
   "MDAwYWNpZCBj", "CjAwMzl2aWQg", "aWlpaWlpaWlp", "aWlpaWlpaWJi", "YmJiYmJiYmJi",
   "YmJiYmJiYmJi", "YmJiYmJiYmJi", "YmJiCjAwMmVz", "aWduYXR1cmUg", "AQEBAQEBAQEB",
   "AQEBAQEBAQEB", "AQEBAQEBAQEB", "AQEBAQE"].flatMap ascii

/-- A discharge that verifies under the keys of both. -/
def eitherKey : Bytes :=
  ["MDAxMWlkZW50", "aWZpZXIgYwow", "MDBmY2lkIHBh", "dGg6LwowMDJl", "c2lnbmF0dXJl",
   "IAEBAQEBAQEB", "AQEBAQEBAQEB", "AQEBAQEBAQEB", "AQEBAQEB"].flatMap ascii

/-- A discharge that verifies under the key of the first. -/
def firstKey : Bytes :=
  ["MDAxMWlkZW50", "aWZpZXIgYwow", "MDJlc2lnbmF0", "dXJlIGFhYWFh", "YWFhYWFhYWFh",
   "YWFhYWFhYWFh", "YWFhYWFhYWFh"].flatMap ascii

/-- A discharge that verifies under the key of the second. -/
def secondKey : Bytes :=
  ["MDAxMWlkZW50", "aWZpZXIgYwow", "MDJlc2lnbmF0", "dXJlIGJiYmJi", "YmJiYmJiYmJi",
   "YmJiYmJiYmJi", "YmJiYmJiYmJi"].flatMap ascii

/-- The signature a token ends in. -/
def signatureOf (env : MacaroonEnv) (token : Bytes) : Option Bytes :=
  ((b64urlDecode env.evpDecode token b64DecodeMax).bind fun bin =>
    (macaroonPackets bin).getLast?).bind (labelled "signature ")

def bundleOfTwo (root d d' : Bytes) : Bytes := root ++ 32 :: (d ++ 32 :: d')

theorem words_bundleOfTwo {root d d' : Bytes} (hroot : 32 ∉ root ∧ root ≠ [])
    (hd : 32 ∉ d ∧ d ≠ []) (hd' : 32 ∉ d' ∧ d' ≠ []) :
    Words.words 32 (bundleOfTwo root d d') = [root, d, d'] := by
  rw [bundleOfTwo, Words.words_append_sep hroot.1 hroot.2, Words.words_append_sep hd.1 hd.2,
    Words.words_eq_self hd'.1 hd'.2]

theorem bundleOfTwo_parts :
    ∀ part ∈ [twoCaveats, twoCaveatsOnPath, eitherKey, firstKey, secondKey],
      32 ∉ part ∧ part ≠ [] := by
  decide +kernel

theorem words_eitherKey_first :
    Words.words 32 (bundleOfTwo twoCaveats eitherKey firstKey) =
      [twoCaveats, eitherKey, firstKey] :=
  words_bundleOfTwo (bundleOfTwo_parts _ (by simp)) (bundleOfTwo_parts _ (by simp))
    (bundleOfTwo_parts _ (by simp))

theorem words_firstKey_first :
    Words.words 32 (bundleOfTwo twoCaveats firstKey eitherKey) =
      [twoCaveats, firstKey, eitherKey] :=
  words_bundleOfTwo (bundleOfTwo_parts _ (by simp)) (bundleOfTwo_parts _ (by simp))
    (bundleOfTwo_parts _ (by simp))

theorem words_otherRoot :
    Words.words 32 (bundleOfTwo twoCaveatsOnPath firstKey eitherKey) =
      [twoCaveatsOnPath, firstKey, eitherKey] :=
  words_bundleOfTwo (bundleOfTwo_parts _ (by simp)) (bundleOfTwo_parts _ (by simp))
    (bundleOfTwo_parts _ (by simp))

theorem validate_colliding :
    macaroonValidateBundle collidingEnv (ascii "k")
        (bundleOfTwo twoCaveats eitherKey firstKey) = none ∧
      (macaroonValidateBundle collidingEnv (ascii "k")
        (bundleOfTwo twoCaveats firstKey eitherKey)).isSome = true ∧
      (macaroonValidateBundle collidingEnv (ascii "k")
        (bundleOfTwo twoCaveatsOnPath firstKey eitherKey)).isSome = true ∧
      signatureOf collidingEnv twoCaveats ≠ signatureOf collidingEnv twoCaveatsOnPath := by
  rw [validateBundle_eq words_eitherKey_first (by decide),
    validateBundle_eq words_firstKey_first (by decide),
    validateBundle_eq words_otherRoot (by decide)]
  decide +kernel

/-- **Neither the order nor the root** of a discharge is fixed by its signature: a bundle
is refused that is accepted with its discharges the other way round, and a discharge is
accepted behind roots of two signatures. -/
theorem order_and_root_unbound :
    (¬∀ (env : MacaroonEnv) (rootKey token token' root : Bytes)
      (discharges discharges' : List Bytes),
      Words.words 32 token = root :: discharges → Words.words 32 token' = root :: discharges' →
      discharges.Perm discharges' →
      (macaroonValidateBundle env rootKey token).isSome =
        (macaroonValidateBundle env rootKey token').isSome) ∧
    ¬∀ (env : MacaroonEnv) (rootKey token token' root root' d : Bytes)
      (discharges discharges' : List Bytes),
      Words.words 32 token = root :: discharges → Words.words 32 token' = root' :: discharges' →
      (macaroonValidateBundle env rootKey token).isSome = true →
      (macaroonValidateBundle env rootKey token').isSome = true →
      d ∈ discharges → d ∈ discharges' → signatureOf env root = signatureOf env root' := by
  obtain ⟨hrefused, haccepted, hother, hsigs⟩ := validate_colliding
  constructor
  · intro h
    have heq := h collidingEnv (ascii "k") _ _ twoCaveats [eitherKey, firstKey]
      [firstKey, eitherKey] words_eitherKey_first words_firstKey_first (.swap _ _ _)
    rw [hrefused, haccepted] at heq
    cases heq
  · intro h
    have heq := h collidingEnv (ascii "k") _ _ twoCaveats twoCaveatsOnPath firstKey
      [firstKey, eitherKey] [firstKey, eitherKey] words_firstKey_first words_otherRoot
      haccepted hother mem_cons_self mem_cons_self
    exact hsigs heq

/-! ## Any order -/

/-- **Discharges** of an accepted bundle answer the caveats of its root one to one, and
what the bundle allows, and how long, does not depend on their order. Nor does whether it
is accepted, where no discharge verifies for one identifier under two keys. -/
theorem discharges_sound_and_unordered (hwords : Words.words 32 token = root :: discharges)
    (hwords' : Words.words 32 token' = root :: discharges')
    (hperm : discharges.Perm discharges') :
    (∀ claims, macaroonValidateBundle env rootKey token = some claims →
      Sound env rootKey root discharges) ∧
    (∀ claims claims', macaroonValidateBundle env rootKey token = some claims →
      macaroonValidateBundle env rootKey token' = some claims' →
      SameAuthority claims claims') ∧
    ((∀ parsed, RootParsed env rootKey root parsed → KeysApart env parsed.tps discharges) →
      (macaroonValidateBundle env rootKey token).isSome =
        (macaroonValidateBundle env rootKey token').isSome) := by
  refine ⟨fun claims h => sound h hwords, fun claims claims' h h' => ?_, fun hkeys => ?_⟩
  · refine sameAuthority (bundleAllows h) (bundleAllows h') ?_
      (bundleCaveats_perm hwords hwords' hperm)
    rw [rootCaveats, rootCaveats, hwords, hwords']
    rfl
  · have hkeys' : ∀ parsed, RootParsed env rootKey root parsed →
        KeysApart env parsed.tps discharges' := by
      intro parsed hparsed tp htp tp' htp' hcid token htoken
      exact hkeys parsed hparsed tp htp tp' htp' hcid token (hperm.mem_iff.mpr htoken)
    have hmatch : ∀ tps : List MacaroonTp, Matchable (DischargesCaveat env) tps discharges ↔
        Matchable (DischargesCaveat env) tps discharges' :=
      fun tps => ⟨fun h => h.perm hperm, fun h => h.perm hperm.symm⟩
    rw [Bool.eq_iff_iff, validateBundle_isSome hwords hkeys,
      validateBundle_isSome hwords' hkeys']
    simp only [hperm.length_eq, hmatch]

/-- Two discharges for one identifier, each under its own key, are accepted in both orders. -/
theorem discharges_sound_and_unordered_sample :
    (macaroonValidateBundle collidingEnv (ascii "k")
        (bundleOfTwo twoCaveats firstKey secondKey)).isSome = true ∧
      Sound collidingEnv (ascii "k") twoCaveats [firstKey, secondKey] ∧
      (macaroonValidateBundle collidingEnv (ascii "k")
        (bundleOfTwo twoCaveats secondKey firstKey)).isSome = true := by
  have hwords := words_bundleOfTwo (bundleOfTwo_parts twoCaveats (by simp))
    (bundleOfTwo_parts firstKey (by simp)) (bundleOfTwo_parts secondKey (by simp))
  have hwords' := words_bundleOfTwo (bundleOfTwo_parts twoCaveats (by simp))
    (bundleOfTwo_parts secondKey (by simp)) (bundleOfTwo_parts firstKey (by simp))
  have hroot : ((b64urlDecode collidingEnv.evpDecode twoCaveats b64DecodeMax).bind fun bin =>
      macaroonParseCore collidingEnv (ascii "k") (some macaroonMaxTpCaveats) bin).all fun parsed =>
        decide (∀ tp ∈ parsed.tps, ∀ tp' ∈ parsed.tps, ∀ token ∈ [firstKey, secondKey],
          ((macaroonDecryptVid collidingEnv tp).bind fun key =>
            macaroonDischarge collidingEnv tp.cid key token).isSome = true →
          ((macaroonDecryptVid collidingEnv tp').bind fun key =>
            macaroonDischarge collidingEnv tp'.cid key token).isSome = true →
          macaroonDecryptVid collidingEnv tp = macaroonDecryptVid collidingEnv tp') := by
    decide +kernel
  obtain ⟨hsound, -, hsame⟩ := @discharges_sound_and_unordered collidingEnv _ _ (ascii "k") _ _ _
    hwords hwords' (.swap _ _ _)
  have haccepted : (macaroonValidateBundle collidingEnv (ascii "k")
      (bundleOfTwo twoCaveats firstKey secondKey)).isSome = true := by
    rw [validateBundle_eq hwords (by decide)]
    decide +kernel
  obtain ⟨claims, hclaims⟩ := Option.isSome_iff_exists.mp haccepted
  refine ⟨haccepted, hsound claims hclaims, (hsame ?_).symm.trans haccepted⟩
  rintro parsed ⟨bin, hbin, hparsed, -⟩ tp htp tp' htp' - token htoken key key' hkey hkey' h h'
  rw [hbin, Option.bind_some, hparsed, Option.all_some, decide_eq_true_eq] at hroot
  have hone := hroot tp htp tp' htp' token htoken (by rw [hkey]; exact h) (by rw [hkey']; exact h')
  rwa [hkey, hkey', Option.some_inj] at hone

end BrixCache
