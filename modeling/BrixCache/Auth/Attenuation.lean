import BrixCache.Auth.Bundle
import BrixCache.Lib.Base64

/-!
# Appended caveats

A holder appends caveats to the macaroons of a bundle. A bundle whose root names
activities is only narrowed by that. A root without an activity allows nothing, and the
first activity that is appended to it allows something.
-/

namespace BrixCache

open List

/-! ## Appending -/

/-- A caveat as a holder appends it. -/
inductive MacaroonCaveat : Type where
  | firstParty (caveat : Bytes)
  | thirdParty (cid vid : Bytes) (location : Option Bytes)

/-- The packets that append the caveat. -/
def MacaroonCaveat.packets : MacaroonCaveat → List Bytes
  | .firstParty caveat => [ascii "cid " ++ caveat]
  | .thirdParty cid vid none => [ascii "cid " ++ cid, ascii "vid " ++ vid]
  | .thirdParty cid vid (some location) =>
    [ascii "cid " ++ cid, ascii "vid " ++ vid, ascii "cl " ++ location]

/-- The first party texts among the packets. -/
def MacaroonCaveat.restricts : MacaroonCaveat → List Bytes
  | .firstParty caveat => [caveat]
  | .thirdParty _ _ _ => []

/-- A macaroon with caveats appended: its packets but the signature, theirs, and the
signature of the longer chain. -/
def ExtendsMacaroon (env : MacaroonEnv) (token token' : Bytes)
    (added : List MacaroonCaveat) : Prop :=
  ∃ bin bin' pre sig sig', b64urlDecode env.evpDecode token b64DecodeMax = some bin ∧
    b64urlDecode env.evpDecode token' b64DecodeMax = some bin' ∧
    macaroonPackets bin = pre ++ [ascii "signature " ++ sig] ∧
    macaroonPackets bin' =
      pre ++ (added.flatMap MacaroonCaveat.packets ++ [ascii "signature " ++ sig'])

/-- A bundle with caveats appended to its root, and perhaps to its discharges, and with
more discharges. -/
def ExtendsBundle (env : MacaroonEnv) (token token' : Bytes)
    (added : List MacaroonCaveat) : Prop :=
  ∃ root root' discharges discharges', Words.words 32 token = root :: discharges ∧
    Words.words 32 token' = root' :: discharges' ∧
    ExtendsMacaroon env root root' added ∧
    ∀ d ∈ discharges, ∃ d' ∈ discharges', ∃ more, ExtendsMacaroon env d d' more

variable {env : MacaroonEnv} {es : List Bytes} {added : List MacaroonCaveat}
  {sig token token' rootKey : Bytes} {claims claims' : TokenClaims}

/-- No packet says whose a caveat before these packets is. -/
def Opens (es : List Bytes) : Prop :=
  ∀ pending, firstPartyFrom pending es = pending.toList ++ firstPartyFrom none es

theorem firstPartyFrom_append (h : Opens es) (ds : List Bytes)
    (pending : Option Bytes) :
    firstPartyFrom pending (ds ++ es) =
      firstPartyFrom pending ds ++ firstPartyFrom none es := by
  induction ds generalizing pending with
  | nil => exact h pending
  | cons d ds ih =>
    simp only [cons_append, firstPartyFrom]
    split
    · rw [ih, append_assoc]
    split
    · exact ih none
    split
    · rw [ih, append_assoc]
    · exact ih pending

theorem opens_signature : Opens [ascii "signature " ++ sig] := by
  intro pending
  rw [firstPartyFrom_signature, firstPartyFrom_signature]
  rfl

theorem opens_caveats :
    Opens (added.flatMap MacaroonCaveat.packets ++ [ascii "signature " ++ sig]) := by
  cases added with
  | nil => exact opens_signature
  | cons c added =>
    intro pending
    obtain caveat | ⟨cid, vid, location⟩ := c
    · simp [MacaroonCaveat.packets]
    · cases location <;> simp [MacaroonCaveat.packets]

theorem firstPartyFrom_added :
    firstPartyFrom none
        (added.flatMap MacaroonCaveat.packets ++ [ascii "signature " ++ sig]) =
      added.flatMap MacaroonCaveat.restricts := by
  induction added with
  | nil =>
    rw [flatMap_nil, nil_append, firstPartyFrom_signature]
    rfl
  | cons c added ih =>
    rw [flatMap_cons, flatMap_cons, append_assoc]
    obtain caveat | ⟨cid, vid, location⟩ := c
    · rw [MacaroonCaveat.packets, MacaroonCaveat.restricts, singleton_append,
        firstPartyFrom_cid, opens_caveats, ih]
      rfl
    · cases location with
      | none =>
        simp only [MacaroonCaveat.packets, MacaroonCaveat.restricts, cons_append,
          nil_append, firstPartyFrom_cid, firstPartyFrom_vid, ih]
        rfl
      | some location =>
        simp only [MacaroonCaveat.packets, MacaroonCaveat.restricts, cons_append,
          nil_append, firstPartyFrom_cid, firstPartyFrom_vid]
        rw [firstPartyFrom_other (by decide), ih]
        rfl

theorem ExtendsMacaroon.tokenCaveats (h : ExtendsMacaroon env token token' added) :
    tokenCaveats env token' =
      tokenCaveats env token ++ added.flatMap MacaroonCaveat.restricts := by
  obtain ⟨bin, bin', pre, sig, sig', hbin, hbin', hpackets, hpackets'⟩ := h
  rw [tokenCaveats_of_decode hbin, tokenCaveats_of_decode hbin', macaroonCaveats,
    macaroonCaveats, hpackets, hpackets', firstPartyFrom_append opens_caveats pre,
    firstPartyFrom_append opens_signature pre, firstPartyFrom_added, firstPartyFrom_signature]
  simp [firstPartyFrom]

theorem ExtendsBundle.subset (h : ExtendsBundle env token token' added) :
    bundleCaveats env token ⊆ bundleCaveats env token' := by
  obtain ⟨root, root', discharges, discharges', hwords, hwords', hroot, hdischarges⟩ := h
  intro c hc
  rw [bundleCaveats, hwords, flatMap_cons, mem_append, mem_flatMap] at hc
  rw [bundleCaveats, hwords', flatMap_cons, mem_append, mem_flatMap]
  obtain hc | ⟨d, hd, hc⟩ := hc
  · rw [hroot.tokenCaveats]
    exact .inl (mem_append_left _ hc)
  · obtain ⟨d', hd', more, hext⟩ := hdischarges d hd
    refine .inr ⟨d', hd', ?_⟩
    rw [hext.tokenCaveats]
    exact mem_append_left _ hc

theorem ExtendsBundle.rootCaveats (h : ExtendsBundle env token token' added) :
    rootCaveats env token' =
      rootCaveats env token ++ added.flatMap MacaroonCaveat.restricts := by
  obtain ⟨root, root', discharges, discharges', hwords, hwords', hroot, -⟩ := h
  rw [BrixCache.rootCaveats, BrixCache.rootCaveats, hwords, hwords']
  exact hroot.tokenCaveats

/-! ## Authority -/

/-- What the checks let through on the claims of a bundle they let through on others, and
it does not live longer. -/
def Attenuates (claims claims' : TokenClaims) : Prop :=
  (∀ p, (tokenCheckRead claims'.scopes p = true → tokenCheckRead claims.scopes p = true) ∧
    (tokenCheckWrite claims'.scopes p = true → tokenCheckWrite claims.scopes p = true)) ∧
  claims'.exp ≤ claims.exp

theorem BundleAllows.attenuates (h : BundleAllows env token claims)
    (h' : BundleAllows env token' claims')
    (hsub : bundleCaveats env token ⊆ bundleCaveats env token')
    (hmono : ∀ perm p, ScopesAllow claims'.scopes perm p → ScopesAllow claims.scopes perm p) :
    Attenuates claims claims' := by
  refine ⟨fun p => ⟨?_, ?_⟩, ?_⟩
  · rw [checkRead_iff, checkRead_iff]
    exact hmono .read p
  · rw [h.checkWrite_iff, h'.checkWrite_iff]
    exact Or.imp (hmono .write p) (hmono .modify p)
  · by_contra hlt
    have hlive := (h'.exp claims.exp).mp (Int.not_le.mp hlt)
    exact Int.lt_irrefl _ ((h.exp claims.exp).mpr fun c hc => hlive c (hsub hc))

/-- **Attenuation** holds just where the original's root names an activity already, or no
activity is appended to it, or the extended bundle's caveats permit nothing together. -/
theorem attenuates_iff (hext : ExtendsBundle env token token' added)
    (h : macaroonValidateBundle env rootKey token = some claims)
    (h' : macaroonValidateBundle env rootKey token' = some claims') :
    Attenuates claims claims' ↔
      (rootCaveats env token).any isActivity = true ∨
      (added.flatMap MacaroonCaveat.restricts).any isActivity = false ∨
      ∀ perm p, ∃ c ∈ bundleCaveats env token', caveatPermits c perm p = false := by
  have ha := bundleAllows h
  have ha' := bundleAllows h'
  have hroot' : (rootCaveats env token').any isActivity =
      ((rootCaveats env token).any isActivity ||
        (added.flatMap MacaroonCaveat.restricts).any isActivity) := by
    rw [hext.rootCaveats, any_append]
  constructor
  · intro hatt
    by_contra hcon
    simp only [not_or, Bool.not_eq_true, Bool.not_eq_false, not_forall, not_exists,
      not_and] at hcon
    obtain ⟨hnone, hsome, perm, p, hall⟩ := hcon
    have hallow' : ScopesAllow claims'.scopes perm p :=
      (ha'.allow_iff perm p).mpr ⟨by rw [hroot', hsome, Bool.or_true], hall⟩
    -- what the extended bundle lets through, the original does not
    have hcheck := ((ha'.checks_iff p).mpr ⟨perm, hallow'⟩).imp (hatt.1 p).1 (hatt.1 p).2
    obtain ⟨perm', hallow⟩ := (ha.checks_iff p).mp hcheck
    rw [ha.allow_iff, hnone] at hallow
    cases hallow.1
  · intro hcond
    refine ha.attenuates ha' hext.subset fun perm p hallow' => ?_
    obtain ⟨hseen, hall⟩ := (ha'.allow_iff perm p).mp hallow'
    rw [ha.allow_iff]
    refine ⟨?_, fun c hc => hall c (hext.subset hc)⟩
    obtain hroot | hadded | hnever := hcond
    · exact hroot
    · rwa [hroot', hadded, Bool.or_false] at hseen
    · obtain ⟨c, hc, hno⟩ := hnever perm p
      rw [hall c hc] at hno
      cases hno

/-! ## The first activity -/

/-- A library of which the hash is known for some keys and messages. -/
def tableEnv (table : List (Bytes × Bytes × Bytes)) : MacaroonEnv where
  hmac key message :=
    let entry := table.find? fun e => e.1 = key ∧ e.2.1 = message
    ((entry.elim [] fun e => e.2.2) ++ replicate 32 0).take 32
  hmac_length key message := by simp
  aesDecrypt _ _ _ := none
  evpDecode := Base64.decode
  now := some 1750000000

/-- The signatures of the two macaroons: HMAC-SHA256 along their chains, from the secret `k`. -/
def identifierSig : Bytes :=
  [184, 65, 224, 136, 153, 112, 207, 164, 25, 63, 28, 141, 68, 225, 228, 251, 146, 8, 141, 162,
   54, 15, 34, 186, 82, 239, 102, 176, 190, 241, 40, 248]

def expirySig : Bytes :=
  [207, 232, 47, 250, 248, 16, 215, 38, 216, 217, 205, 250, 176, 155, 228, 187, 6, 210, 16,
   183, 116, 83, 4, 60, 192, 153, 54, 52, 249, 127, 21, 146]

def listSig : Bytes :=
  [103, 207, 90, 181, 164, 127, 91, 209, 96, 149, 223, 207, 96, 37, 246, 207, 117, 179, 164,
   221, 115, 189, 244, 31, 72, 171, 92, 25, 32, 28, 94, 127]

def firstActivityEnv : MacaroonEnv := tableEnv
  [(ascii "k", ascii "u", identifierSig),
    (identifierSig, ascii "before:2100-01-01T00:00:00Z", expirySig),
    (expirySig, ascii "activity:LIST", listSig)]

/-- A macaroon for `u` with an expiry only. -/
def expiryOnly : Bytes :=
  ["MDAxMWlkZW50", "aWZpZXIgdQow", "MDI0Y2lkIGJl", "Zm9yZToyMTAw", "LTAxLTAxVDAw",
   "OjAwOjAwWgow", "MDJlc2lnbmF0", "dXJlIM_oL_r4", "ENcm2NnN-rCb", "5LsG0hC3dFME",
     "PMCZNjT5fxWS"].flatMap ascii

/-- The macaroon with `activity:LIST` appended. -/
def expiryAndList : Bytes :=
  ["MDAxMWlkZW50", "aWZpZXIgdQow", "MDI0Y2lkIGJl", "Zm9yZToyMTAw", "LTAxLTAxVDAw",
   "OjAwOjAwWgow", "MDE2Y2lkIGFj", "dGl2aXR5OkxJ", "U1QKMDAyZXNp", "Z25hdHVyZSBn",
   "z1q1pH9b0WCV", "389gJfbPdbOk", "3XO99B9Iq1wZ", "IBxefw"].flatMap ascii

def expiryClaims (scopeRaw : String) (scopes : List TokenScope) : TokenClaims :=
  { TokenClaims.zero with
    sub := ascii "u"
    exp := 4102444800
    scopeRaw := ascii scopeRaw
    scopes }

theorem validate_firstActivity :
    macaroonValidateBundle firstActivityEnv (ascii "k") expiryOnly =
        some (expiryClaims "" []) ∧
      macaroonValidateBundle firstActivityEnv (ascii "k") expiryAndList =
        some (expiryClaims "storage.read:/" [⟨[slash], true, false, false, false⟩]) := by
  decide +kernel

theorem extends_expiryOnly :
    ExtendsBundle firstActivityEnv expiryOnly expiryAndList
      [.firstParty (ascii "activity:LIST")] := by
  refine ⟨expiryOnly, expiryAndList, [], [], by decide +kernel, by decide +kernel,
    ⟨_, _, [ascii "identifier u", ascii "cid before:2100-01-01T00:00:00Z"],
      expirySig,
      listSig,
      (Option.some_get (by decide +kernel)).symm, (Option.some_get (by decide +kernel)).symm,
      by decide +kernel, by decide +kernel⟩, nofun⟩

/-- **Appending the first activity** lets an operation through. -/
theorem first_activity_amplifies :
    ¬∀ (env : MacaroonEnv) (rootKey token token' : Bytes) (added : List MacaroonCaveat)
      (claims claims' : TokenClaims), ExtendsBundle env token token' added →
      macaroonValidateBundle env rootKey token = some claims →
      macaroonValidateBundle env rootKey token' = some claims' →
      Attenuates claims claims' := by
  intro h
  have hatt := h _ _ _ _ _ _ _ extends_expiryOnly validate_firstActivity.1
    validate_firstActivity.2
  have hread := (hatt.1 [slash]).1 (by decide)
  revert hread
  decide

theorem attenuates_iff_sample :
    Attenuates (expiryClaims "" [])
        (expiryClaims "storage.read:/" [⟨[slash], true, false, false, false⟩]) ↔
      (rootCaveats firstActivityEnv expiryOnly).any isActivity = true ∨
      ([MacaroonCaveat.firstParty (ascii "activity:LIST")].flatMap
        MacaroonCaveat.restricts).any isActivity = false ∨
      ∀ perm p, ∃ c ∈ bundleCaveats firstActivityEnv expiryAndList,
        caveatPermits c perm p = false :=
  attenuates_iff extends_expiryOnly validate_firstActivity.1 validate_firstActivity.2

end BrixCache
