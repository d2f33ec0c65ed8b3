import BrixCache.Auth.Macaroon

/-!
# The packets of a macaroon

What a parse does with one packet, and from it what it does with all of them: the
first-party caveats restrict one after the other, and the signatures form a chain.
-/

namespace BrixCache

open List

variable {env : MacaroonEnv}

/-! ## Labels -/

variable {label : String} {x bin : Bytes}

theorem labelled_eq_some {d : Bytes} :
    labelled label d = some x ↔ d = ascii label ++ x := by
  rw [labelled]
  constructor
  · intro h
    split at h
    · next hp =>
      rw [← Option.some.inj h]
      exact (prefix_iff_eq_append.mp hp).symm
    · cases h
  · rintro rfl
    simp

@[simp]
theorem labelled_append :
    labelled label (ascii label ++ x) = some x :=
  labelled_eq_some.mpr rfl

theorem labelled_of_ne {other : String}
    (h : ¬(ascii label <+: ascii other ∨ ascii other <+: ascii label)) :
    labelled label (ascii other ++ x) = none := by
  rw [labelled, if_neg]
  exact fun hp => h (List.prefix_or_prefix_of_prefix hp (prefix_append _ _))

/-! ## One packet -/

/-- The packets from the first, as long as they are well formed. -/
def packetsFrom : ℕ → Bytes → List Bytes
  | 0, _ => []
  | fuel + 1, bin =>
    match macaroonPacket bin with
    | none => []
    | some (data, rest) => data :: packetsFrom fuel rest

def macaroonPackets (bin : Bytes) : List Bytes := packetsFrom bin.length bin

/-- What the caveat that waits for the next packet leaves of the limits. -/
def MacaroonState.finalized (st : MacaroonState) : Option MacaroonLimits :=
  st.lastCid.toList.foldlM macaroonParseFirstPartyCaveat st.limits

theorem macaroonFinalizePendingCid_eq (st : MacaroonState) :
    macaroonFinalizePendingCid st =
      st.finalized.map fun limits => { st with limits, lastCid := none } := by
  rw [macaroonFinalizePendingCid, MacaroonState.finalized]
  cases hcid : st.lastCid with
  | none =>
    have heta : st = { st with lastCid := none } := by rw [← hcid]
    exact congrArg some heta
  | some cid =>
    rw [Option.toList_some, foldlM_cons]
    cases hparse : macaroonParseFirstPartyCaveat st.limits cid <;> simp [hparse]

/-- What a packet that is accepted does. -/
inductive Dispatched (env : MacaroonEnv) (st : MacaroonState) :
    Bytes → MacaroonState → Prop where
  | caveatLocation (location) (hallowed : st.caveatLocationAllowed = true) :
    Dispatched env st (ascii "cl " ++ location) { st with caveatLocationAllowed := false }
  | identifier (identifier) (hid : st.foundId = false) (hcid : st.lastCid = none) :
    Dispatched env st (ascii "identifier " ++ identifier)
      { st with
        caveatLocationAllowed := false
        sig := env.hmac st.key identifier
        sub := identifier
        foundId := true }
  | location (location) (hid : st.foundId = false) :
    Dispatched env st (ascii "location " ++ location)
      { st with caveatLocationAllowed := false, iss := location, foundLocation := true }
  | cid (caveat limits) (hid : st.foundId = true) (hlimits : st.finalized = some limits) :
    Dispatched env st (ascii "cid " ++ caveat)
      { st with
        caveatLocationAllowed := false
        limits
        sigBeforeCid := st.sig
        sig := env.hmac st.sig caveat
        lastCid := some caveat }
  | vid (vid cid maxTp) (hcid : st.lastCid = some cid) (hmax : st.maxTp = some maxTp)
      (hvid : vid.length = macaroonVidLen) (hroom : st.tps.length < maxTp) :
    Dispatched env st (ascii "vid " ++ vid)
      { st with
        sig := env.hmac st.sig vid
        tps := st.tps ++ [⟨cid, vid, st.sigBeforeCid⟩]
        lastCid := none
        caveatLocationAllowed := true }
  | signature (limits) (hid : st.foundId = true) (hlimits : st.finalized = some limits) :
    Dispatched env st (ascii "signature " ++ st.sig)
      { st with
        caveatLocationAllowed := false
        limits
        lastCid := none
        foundSig := true }

variable {st st' : MacaroonState} {d : Bytes}

theorem dispatched_cid {caveat : Bytes}
    (h : macaroonPacketCid env { st with caveatLocationAllowed := false } caveat = some st') :
    Dispatched env st (ascii "cid " ++ caveat) st' := by
  rw [macaroonPacketCid] at h
  split at h
  · cases h
  · next hc =>
    simp only [not_or, Bool.not_eq_false] at hc
    rw [macaroonFinalizePendingCid_eq, Option.map_map, Option.map_eq_some_iff] at h
    obtain ⟨limits, hlimits, rfl⟩ := h
    exact .cid caveat limits hc.1 hlimits

theorem dispatched_vid {vid : Bytes}
    (h : macaroonPacketVid env { st with caveatLocationAllowed := false } vid = some st') :
    Dispatched env st (ascii "vid " ++ vid) st' := by
  rw [macaroonPacketVid] at h
  split at h
  · next cid maxTp hcid hmax =>
    split at h
    · cases h
    · next hc =>
      obtain ⟨hvid, hroom⟩ := not_or.mp hc
      cases h
      exact .vid vid cid maxTp hcid hmax (not_not.mp hvid) (not_le.mp hroom)
  · cases h

theorem dispatched_signature {sig : Bytes}
    (h : macaroonPacketSignature { st with caveatLocationAllowed := false } sig = some st') :
    Dispatched env st (ascii "signature " ++ sig) st' := by
  rw [macaroonPacketSignature] at h
  split at h
  · cases h
  next hc =>
  simp only [not_or, Bool.not_eq_false] at hc
  split at h
  · cases h
  next hfinal =>
  rw [macaroonFinalizePendingCid_eq, Option.map_eq_some_iff] at hfinal
  obtain ⟨limits, hlimits, rfl⟩ := hfinal
  split at h
  · next hsig =>
    cases h
    rw [← hsig]
    exact .signature limits hc.1 hlimits
  · cases h

/-- What a packet does to the state, said once -/
theorem dispatched (h : macaroonDispatchPacket env st d = some st') :
    st.foundSig = false ∧ Dispatched env st d st' := by
  rw [macaroonDispatchPacket] at h
  split at h
  · cases h
  next hsig =>
  refine ⟨Bool.eq_false_iff.mpr hsig, ?_⟩
  split at h
  · next location hd =>
    rw [labelled_eq_some.mp hd]
    rw [macaroonPacketCaveatLocation] at h
    split at h
    · cases h
    · next hc =>
      simp only [not_or, Bool.not_eq_false] at hc
      cases h
      exact .caveatLocation location hc.1
  split at h
  · next identifier hd =>
    rw [labelled_eq_some.mp hd]
    rw [macaroonPacketIdentifier] at h
    split at h
    · cases h
    · next hc =>
      simp only [not_or, Bool.not_eq_true, Option.isSome_eq_false_iff,
        Option.isNone_iff_eq_none] at hc
      cases h
      exact .identifier identifier hc.1 hc.2.1
  split at h
  · next location hd =>
    rw [labelled_eq_some.mp hd]
    rw [macaroonPacketLocation] at h
    split at h
    · cases h
    · next hc =>
      simp only [not_or, Bool.not_eq_true] at hc
      cases h
      exact .location location hc.2.1
  split at h
  · next caveat hd =>
    rw [labelled_eq_some.mp hd]
    exact dispatched_cid h
  split at h
  · next vid hd =>
    rw [labelled_eq_some.mp hd]
    exact dispatched_vid h
  split at h
  · next sig hd =>
    rw [labelled_eq_some.mp hd]
    exact dispatched_signature h
  · cases h

/-- The first-party caveats among packets, behind one that waits for the next packet:
a third party's has its `vid` there. -/
def firstPartyFrom (pending : Option Bytes) : List Bytes → List Bytes
  | [] => pending.toList
  | d :: ds =>
    match labelled "cid " d with
    | some caveat => pending.toList ++ firstPartyFrom (some caveat) ds
    | none =>
      if (labelled "vid " d).isSome then firstPartyFrom none ds
      else if (labelled "signature " d).isSome then pending.toList ++ firstPartyFrom none ds
      else firstPartyFrom pending ds

/-- One packet's step of the signature chain. -/
def packetSig (env : MacaroonEnv) (key sig d : Bytes) : Bytes :=
  match labelled "identifier " d with
  | some identifier => env.hmac key identifier
  | none =>
    match labelled "cid " d with
    | some caveat => env.hmac sig caveat
    | none =>
      match labelled "vid " d with
      | some vid => env.hmac sig vid
      | none => sig

section Step

variable {pending : Option Bytes} {rootKey sig x : Bytes} {ds : List Bytes}

@[simp]
theorem firstPartyFrom_cid : firstPartyFrom pending ((ascii "cid " ++ x) :: ds) =
    pending.toList ++ firstPartyFrom (some x) ds := by
  rw [firstPartyFrom, labelled_append]

@[simp]
theorem firstPartyFrom_vid : firstPartyFrom pending ((ascii "vid " ++ x) :: ds) =
    firstPartyFrom none ds := by
  rw [firstPartyFrom, labelled_of_ne (by decide), labelled_append]
  rfl

@[simp]
theorem firstPartyFrom_signature : firstPartyFrom pending ((ascii "signature " ++ x) :: ds) =
    pending.toList ++ firstPartyFrom none ds := by
  rw [firstPartyFrom, labelled_of_ne (by decide), labelled_of_ne (by decide), labelled_append]
  rfl

theorem firstPartyFrom_other {label : String} (h : ∀ l ∈ ["cid ", "vid ", "signature "],
      ¬(ascii l <+: ascii label ∨ ascii label <+: ascii l)) :
    firstPartyFrom pending ((ascii label ++ x) :: ds) = firstPartyFrom pending ds := by
  rw [firstPartyFrom, labelled_of_ne (h _ (by simp)), labelled_of_ne (h _ (by simp)),
    labelled_of_ne (h _ (by simp))]
  rfl

theorem Dispatched.firstParty (h : Dispatched env st d st') (ds : List Bytes) :
    (firstPartyFrom st.lastCid (d :: ds)).foldlM macaroonParseFirstPartyCaveat st.limits =
      (firstPartyFrom st'.lastCid ds).foldlM macaroonParseFirstPartyCaveat st'.limits := by
  cases h with
  | caveatLocation location hallowed | identifier identifier hid hcid | location location hid =>
    rw [firstPartyFrom_other (by decide)]
  | cid caveat limits hid hlimits =>
    rw [firstPartyFrom_cid, foldlM_append]
    rw [MacaroonState.finalized] at hlimits
    rw [hlimits]
    rfl
  | vid vid cid maxTp hcid hmax hvid hroom => rw [firstPartyFrom_vid]
  | signature limits hid hlimits =>
    rw [firstPartyFrom_signature, foldlM_append]
    rw [MacaroonState.finalized] at hlimits
    rw [hlimits]
    rfl

theorem packetSig_other {label : String} (h : ∀ l ∈ ["identifier ", "cid ", "vid "],
      ¬(ascii l <+: ascii label ∨ ascii label <+: ascii l)) :
    packetSig env rootKey sig (ascii label ++ x) = sig := by
  rw [packetSig, labelled_of_ne (h _ (by simp)), labelled_of_ne (h _ (by simp)),
    labelled_of_ne (h _ (by simp))]

theorem Dispatched.chain (h : Dispatched env st d st') :
    st'.sig = packetSig env st.key st.sig d := by
  cases h with
  | caveatLocation location hallowed | location location hid | signature limits hid hlimits =>
    rw [packetSig_other (by decide)]
  | identifier identifier hid hcid => rw [packetSig, labelled_append]
  | cid caveat limits hid hlimits =>
    rw [packetSig, labelled_of_ne (by decide), labelled_append]
  | vid vid cid maxTp hcid hmax hvid hroom =>
    rw [packetSig, labelled_of_ne (by decide), labelled_of_ne (by decide), labelled_append]

theorem Dispatched.key (h : Dispatched env st d st') :
    st'.key = st.key ∧ st'.maxTp = st.maxTp := by
  cases h <;> exact ⟨rfl, rfl⟩

theorem Dispatched.foundSig (h : Dispatched env st d st') (hsig : st.foundSig = false)
    (hfound : st'.foundSig = true) : st'.lastCid = none ∧ d = ascii "signature " ++ st.sig := by
  cases h with
  | signature limits hid hlimits => exact ⟨rfl, rfl⟩
  | _ => simp [hsig] at hfound

end Step

/-! ## All packets -/

/-- The signature chain over a token's packets. -/
def hmacChain (env : MacaroonEnv) (key : Bytes) (ds : List Bytes) : Bytes :=
  ds.foldl (packetSig env key) (replicate 32 0)

theorem hmacChain_concat {key : Bytes} {ds : List Bytes} :
    hmacChain env key (ds ++ [d]) = packetSig env key (hmacChain env key ds) d := by
  simp [hmacChain]

/-- What holds of the state behind the packets that were read. -/
structure ReadTo (env : MacaroonEnv) (key : Bytes) (maxTp : Option ℕ)
    (ds : List Bytes) (st : MacaroonState) : Prop where
  keyed : st.key = key ∧ st.maxTp = maxTp
  sig : st.sig = hmacChain env key ds
  lastCid : ∀ cid, st.lastCid = some cid →
    st.foundId = true ∧ st.caveatLocationAllowed = false ∧
      ∃ pre, ds = pre ++ [ascii "cid " ++ cid] ∧ st.sigBeforeCid = hmacChain env key pre
  tps : ∀ tp ∈ st.tps, ∃ pre post,
    ds = pre ++ (ascii "cid " ++ tp.cid) :: (ascii "vid " ++ tp.vid) :: post ∧
      tp.sigBefore = hmacChain env key pre
  foundSig : st.foundSig = true → st.lastCid = none ∧
    ∃ pre, ds = pre ++ [ascii "signature " ++ hmacChain env key pre]

variable {key : Bytes} {maxTp : Option ℕ} {ds es : List Bytes}

theorem ReadTo.init :
    ReadTo env key maxTp [] (macaroonParseStateInit key maxTp) where
  keyed := ⟨rfl, rfl⟩
  sig := rfl
  lastCid := nofun
  tps := nofun
  foundSig := nofun

theorem ReadTo.tps_concat (h : ReadTo env key maxTp ds st) (d : Bytes) :
    ∀ tp ∈ st.tps, ∃ pre post,
      ds ++ [d] = pre ++ (ascii "cid " ++ tp.cid) :: (ascii "vid " ++ tp.vid) :: post ∧
        tp.sigBefore = hmacChain env key pre := by
  intro tp htp
  obtain ⟨pre, post, hds, hsig⟩ := h.tps tp htp
  exact ⟨pre, post ++ [d], by rw [hds]; simp, hsig⟩

/-- One more packet -/
theorem ReadTo.step (h : ReadTo env key maxTp ds st) (hsig : st.foundSig = false)
    (hd : Dispatched env st d st') : ReadTo env key maxTp (ds ++ [d]) st' := by
  have hchain : st'.sig = hmacChain env key (ds ++ [d]) := by
    rw [hmacChain_concat, hd.chain, h.keyed.1, h.sig]
  refine ⟨⟨hd.key.1.trans h.keyed.1, hd.key.2.trans h.keyed.2⟩, hchain, ?_, ?_, ?_⟩
  · intro cid hcid
    cases hd with
    | caveatLocation location hallowed =>
      rw [(h.lastCid cid hcid).2.1] at hallowed
      cases hallowed
    | identifier identifier hid hnone =>
      rw [hnone] at hcid
      cases hcid
    | location location hid =>
      rw [(h.lastCid cid hcid).1] at hid
      cases hid
    | cid caveat limits hid hlimits =>
      cases hcid
      exact ⟨hid, rfl, ds, rfl, h.sig⟩
    | vid vid cid' maxTp hlast hmax hvid hroom | signature limits hid hlimits => cases hcid
  · cases hd with
    | caveatLocation location hallowed | identifier identifier hid hnone | location location hid
    | cid caveat limits hid hlimits | signature limits hid hlimits => exact h.tps_concat _
    | vid vid cid maxTp hlast hmax hvid hroom =>
      intro tp htp
      obtain htp | htp := mem_append.mp htp
      · exact h.tps_concat _ tp htp
      · rw [mem_singleton.mp htp]
        obtain ⟨-, -, pre, hds, hbefore⟩ := h.lastCid cid hlast
        exact ⟨pre, [], by rw [hds]; simp, hbefore⟩
  · intro hfound
    obtain ⟨hlast, rfl⟩ := hd.foundSig hsig hfound
    exact ⟨hlast, ds, by rw [h.sig]⟩

theorem ReadTo.run (h : ReadTo env key maxTp ds st)
    (hrun : es.foldlM (macaroonDispatchPacket env) st = some st') :
    ReadTo env key maxTp (ds ++ es) st' := by
  induction es generalizing ds st with
  | nil =>
    cases hrun
    rwa [append_nil]
  | cons e es ih =>
    rw [foldlM_cons, Option.bind_eq_bind, Option.bind_eq_some_iff] at hrun
    obtain ⟨st₁, hst₁, hrun⟩ := hrun
    obtain ⟨hsig, hd⟩ := dispatched hst₁
    have hread := ih (h.step hsig hd) hrun
    rwa [append_assoc] at hread

theorem firstParty_run (hrun : es.foldlM (macaroonDispatchPacket env) st = some st') :
    (firstPartyFrom st.lastCid es).foldlM macaroonParseFirstPartyCaveat st.limits =
      st'.finalized := by
  induction es generalizing st with
  | nil =>
    cases hrun
    rfl
  | cons e es ih =>
    rw [foldlM_cons, Option.bind_eq_bind, Option.bind_eq_some_iff] at hrun
    obtain ⟨st₁, hst₁, hrun⟩ := hrun
    rw [(dispatched hst₁).2.firstParty es, ih hrun]

theorem packetsFrom_succ (fuel : ℕ) {data rest : Bytes}
    (h : macaroonPacket bin = some (data, rest)) :
    packetsFrom (fuel + 1) bin = data :: packetsFrom fuel rest := by
  rw [packetsFrom, h]

theorem macaroonParsePackets_foldlM {fuel : ℕ}
    (h : macaroonParsePackets env fuel st bin = some st') :
    (packetsFrom fuel bin).foldlM (macaroonDispatchPacket env) st = some st' := by
  induction fuel generalizing st bin with
  | zero =>
    rw [macaroonParsePackets] at h
    split at h
    · exact h
    · cases h
  | succ fuel ih =>
    rw [macaroonParsePackets] at h
    split at h
    · next hnil =>
      rw [packetsFrom, hnil]
      exact h
    split at h
    · cases h
    next data rest hp =>
    rw [packetsFrom_succ fuel hp]
    split at h
    · cases h
    next st₁ hst₁ =>
    rw [foldlM_cons, hst₁]
    split at h
    · cases h
    · exact ih h

/-! ## An accepted macaroon -/

/-- The first party caveats of a token. -/
def macaroonCaveats (bin : Bytes) : List Bytes :=
  firstPartyFrom none (macaroonPackets bin)

/-- The last packet is the signature of those before it. -/
def ChainVerifies (env : MacaroonEnv) (key bin : Bytes) : Prop :=
  ∃ pre, macaroonPackets bin = pre ++ [ascii "signature " ++ hmacChain env key pre]

/-- A third-party caveat of a macaroon, with the chain's signature before it. -/
def Captured (env : MacaroonEnv) (key bin : Bytes) (tp : MacaroonTp) : Prop :=
  ∃ pre post, macaroonPackets bin =
      pre ++ (ascii "cid " ++ tp.cid) :: (ascii "vid " ++ tp.vid) :: post ∧
    tp.sigBefore = hmacChain env key pre

/-- What a parse that succeeds has found. -/
structure Accepted (env : MacaroonEnv) (key : Bytes) (maxTp : Option ℕ)
    (bin : Bytes) (r : MacaroonParsed) : Prop where
  verifies : ChainVerifies env key bin
  captured : ∀ tp ∈ r.tps, Captured env key bin tp
  caveats : (macaroonCaveats bin).foldlM macaroonParseFirstPartyCaveat .zero = some r.limits
  claims : ∃ st : MacaroonState, st.limits = r.limits ∧ macaroonFinalizeScopes st = some r.claims
  beforeSeen : maxTp.isSome = true → r.limits.beforeSeen = true
  live : r.limits.beforeSeen = true → ∃ now : ℕ, env.now = some now ∧ (now : ℤ) < r.limits.exp

/-- **What is accepted**: the chain verifies and the limits are those of the caveats. -/
theorem accepted {r : MacaroonParsed}
    (h : macaroonParseCore env key maxTp bin = some r) : Accepted env key maxTp bin r := by
  rw [macaroonParseCore] at h
  split at h
  · cases h
  split at h
  · cases h
  next st hparse =>
  split at h
  · cases h
  next hfound =>
  split at h
  · cases h
  next hexpiry =>
  rw [Option.map_eq_some_iff] at h
  obtain ⟨claims, hclaims, rfl⟩ := h
  have hrun := macaroonParsePackets_foldlM hparse
  have hread : ReadTo env key maxTp _ st := ReadTo.init.run hrun
  rw [nil_append] at hread
  have hsig : st.foundSig = true := Bool.not_eq_false _ ▸ (not_or.mp hfound).2
  obtain ⟨hlast, hverifies⟩ := hread.foundSig hsig
  refine ⟨hverifies, hread.tps, ?_, ⟨st, rfl, hclaims⟩, ?_, ?_⟩
  · have hparty := firstParty_run hrun
    rw [MacaroonState.finalized, hlast] at hparty
    exact hparty
  · unfold macaroonCheckExpiry at hexpiry
    intro hsome
    by_contra hseen
    rw [if_pos ⟨by rwa [hread.keyed.2], by simpa using hseen⟩] at hexpiry
    exact hexpiry rfl
  · intro hseen
    have hseen : st.limits.beforeSeen = true := hseen
    unfold macaroonCheckExpiry at hexpiry
    rw [if_neg (by simp [hseen]), if_pos hseen] at hexpiry
    cases hnow : env.now with
    | none => simp [hnow] at hexpiry
    | some now => exact ⟨now, rfl, by simpa [hnow] using hexpiry⟩

end BrixCache
