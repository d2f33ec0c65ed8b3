import BrixCache.Auth.Caveats

/-!
# Base64url

`b64url.c`. The decoder of the text itself is the library's, from the alphabet with `+`
and `/` and with padding. The encoder writes as many groups as its buffer takes.
-/

namespace BrixCache

def b64DecodeMax : ℕ := 8192

/-- The character of the padded alphabet. -/
def b64FromUrl (c : UInt8) : UInt8 := if c = 45 then 43 else if c = 95 then 47 else c

/-- `b64url_decode` of a text, into `outMax` bytes, where `evpDecode` is what
`EVP_DecodeUpdate` and `EVP_DecodeFinal` make of a padded text. -/
def b64urlDecode (evpDecode : Bytes → Option Bytes) (text : Bytes)
    (outMax : ℕ) : Option Bytes :=
  let padding := (4 - text.length % 4) % 4
  if b64DecodeMax < text.length + padding then none
  else
    let tmp := text.map b64FromUrl ++ List.replicate padding 61
    let pad := (tmp.reverse.takeWhile (· = 61)).length
    -- with more padding than text the size wraps round
    if tmp.length / 4 * 3 < pad ∨ outMax < tmp.length / 4 * 3 - pad then none
    else
      match evpDecode tmp with
      | none => none
      | some raw => if outMax < raw.length then none else some raw

/-- `tbl` -/
def b64urlTable (n : ℕ) : UInt8 :=
  if n < 26 then UInt8.ofNat (n + 65)
  else if n < 52 then UInt8.ofNat (n + 71)
  else if n < 62 then UInt8.ofNat (n - 4)
  else if n = 62 then 45
  else 95

/-- The last group of `b64url_encode`, of one or two bytes, where it has room. -/
def b64urlEncodeLast (dsz : ℕ) (dst src : Bytes) : Bytes :=
  match src with
  | [] => dst
  | a :: src =>
    if dst.length + 2 < dsz - 1 then
      let v := a.toNat * 65536 + (src.head?.elim 0 fun b => b.toNat * 256)
      dst ++ [b64urlTable (v / 262144 % 64), b64urlTable (v / 4096 % 64)] ++
        if src = [] then [] else [b64urlTable (v / 64 % 64)]
    else dst

/-- The loop of `b64url_encode`, which stops where there is no room for a group. -/
def b64urlEncodeFrom (dsz : ℕ) (dst : Bytes) : Bytes → Bytes
  | a :: b :: c :: src =>
    if dst.length + 4 < dsz - 1 then
      let v := a.toNat * 65536 + b.toNat * 256 + c.toNat
      b64urlEncodeFrom dsz
        (dst ++ [b64urlTable (v / 262144 % 64), b64urlTable (v / 4096 % 64),
          b64urlTable (v / 64 % 64), b64urlTable (v % 64)]) src
    else b64urlEncodeLast dsz dst (a :: b :: c :: src)
  | src => b64urlEncodeLast dsz dst src

/-- `b64url_encode` into a buffer of `dsz` bytes, the text before its NUL. -/
def b64urlEncode (src : Bytes) (dsz : ℕ) : Bytes := b64urlEncodeFrom dsz [] src

end BrixCache

/-!
## Macaroons

`macaroon_parse.c` and `macaroon.c`. The hash, the cipher and the decoder of base64 are the
library's.
-/

namespace BrixCache

/-- The functions of the library, and the clock; none where it fails. -/
structure MacaroonEnv : Type where
  /-- `HMAC(EVP_sha256(), …)` -/
  hmac : Bytes → Bytes → Bytes
  hmac_length : ∀ key message, (hmac key message).length = 32
  /-- AES-256-CBC with a key and an initial vector, without padding -/
  aesDecrypt : Bytes → Bytes → Bytes → Option Bytes
  evpDecode : Bytes → Option Bytes
  now : Option ℕ

/-- A third-party caveat, with the signature in front of it -/
structure MacaroonTp : Type where
  cid : Bytes
  vid : Bytes
  sigBefore : Bytes
  deriving DecidableEq

/-! ### Packets -/

def hexFromChar (c : UInt8) : Option ℕ :=
  if 48 ≤ c ∧ c ≤ 57 then some (c.toNat - 48)
  else if 97 ≤ c ∧ c ≤ 102 then some (c.toNat - 87)
  else if 65 ≤ c ∧ c ≤ 70 then some (c.toNat - 55)
  else none

/-- Four hex digits. -/
def macaroonPacketLen : Bytes → Option ℕ
  | a :: b :: c :: d :: _ => do
    let a ← hexFromChar a
    let b ← hexFromChar b
    let c ← hexFromChar c
    let d ← hexFromChar d
    return a * 4096 + b * 256 + c * 16 + d
  | _ => none

/-- `macaroon_packet_content_len`: a signature has no newline behind it. -/
def macaroonPacketContent (data : Bytes) : Option Bytes :=
  if ascii "signature " <+: data then some data
  else if data.getLast? = some 10 then some data.dropLast
  else none

/-- The content of the first packet, and what is behind it. -/
def macaroonPacket (bin : Bytes) : Option (Bytes × Bytes) :=
  if bin.length < 4 then none
  else
    match macaroonPacketLen bin with
    | none => none
    | some plen =>
      if plen < 4 ∨ bin.length < plen then none
      else (macaroonPacketContent ((bin.take plen).drop 4)).map fun data => (data, bin.drop plen)

/-! ### One macaroon -/

/-- `brix_macaroon_parse_state_t` -/
structure MacaroonState : Type where
  key : Bytes
  /-- none where third-party caveats are not captured -/
  maxTp : Option ℕ
  sub : Bytes
  iss : Bytes
  limits : MacaroonLimits
  tps : List MacaroonTp
  sig : Bytes
  foundSig : Bool
  foundId : Bool
  foundLocation : Bool
  /-- a caveat of which the next packet says whose it is -/
  lastCid : Option Bytes
  sigBeforeCid : Bytes
  caveatLocationAllowed : Bool
  deriving DecidableEq

def macaroonParseStateInit (key : Bytes) (maxTp : Option ℕ) : MacaroonState :=
  { key, maxTp
    sub := []
    iss := []
    limits := .zero
    tps := []
    sig := List.replicate 32 0
    foundSig := false
    foundId := false
    foundLocation := false
    lastCid := none
    sigBeforeCid := List.replicate 32 0
    caveatLocationAllowed := false }

/-- Not empty and without control bytes. -/
def macaroonTextValueValid (value : Bytes) : Bool :=
  value ≠ [] && value.all fun c => 0x20 ≤ c && c ≠ 0x7f

/-- The identifier, once, starts the chain. -/
def macaroonPacketIdentifier (env : MacaroonEnv) (state : MacaroonState)
    (identifier : Bytes) : Option MacaroonState :=
  if state.foundId ∨ state.lastCid.isSome ∨ 256 ≤ identifier.length ∨
      macaroonTextValueValid identifier = false then none
  else
    some { state with
      sig := env.hmac state.key identifier
      sub := identifier
      foundId := true }

/-- The location, once and before the identifier. -/
def macaroonPacketLocation (state : MacaroonState) (location : Bytes) :
    Option MacaroonState :=
  if state.foundLocation ∨ state.foundId ∨ 256 ≤ location.length ∨
      macaroonTextValueValid location = false then none
  else some { state with iss := location, foundLocation := true }

/-- A pending caveat id without a `vid` is a first party one. -/
def macaroonFinalizePendingCid (state : MacaroonState) : Option MacaroonState :=
  match state.lastCid with
  | none => some state
  | some cid =>
    (macaroonParseFirstPartyCaveat state.limits cid).map fun limits =>
      { state with limits, lastCid := none }

def macaroonMaxCidLen : ℕ := 512

/-- A caveat id extends the chain and waits for its `vid`. -/
def macaroonPacketCid (env : MacaroonEnv) (state : MacaroonState) (caveat : Bytes) :
    Option MacaroonState :=
  if state.foundId = false ∨ macaroonMaxCidLen ≤ caveat.length ∨
      macaroonTextValueValid caveat = false then none
  else
    (macaroonFinalizePendingCid state).map fun state =>
      { state with
        sigBeforeCid := state.sig
        sig := env.hmac state.sig caveat
        lastCid := some caveat }

def macaroonVidLen : ℕ := 48

/-- `macaroon_packet_vid`, with `macaroon_record_third_party_caveat` -/
def macaroonPacketVid (env : MacaroonEnv) (state : MacaroonState) (vid : Bytes) :
    Option MacaroonState :=
  match state.lastCid, state.maxTp with
  | some cid, some maxTp =>
    if vid.length ≠ macaroonVidLen ∨ maxTp ≤ state.tps.length then none
    else
      some { state with
        sig := env.hmac state.sig vid
        tps := state.tps ++ [⟨cid, vid, state.sigBeforeCid⟩]
        lastCid := none
        caveatLocationAllowed := true }
  | _, _ => none

def macaroonMaxClLen : ℕ := 512

def macaroonPacketCaveatLocation (state : MacaroonState) (location : Bytes) :
    Option MacaroonState :=
  if state.caveatLocationAllowed = false ∨ macaroonMaxClLen ≤ location.length ∨
      macaroonTextValueValid location = false then none
  else some { state with caveatLocationAllowed := false }

/-- The signature ends the token. -/
def macaroonPacketSignature (state : MacaroonState) (sig : Bytes) : Option MacaroonState :=
  if state.foundId = false ∨ state.foundSig ∨ sig.length ≠ 32 then none
  else
    match macaroonFinalizePendingCid state with
    | none => none
    | some state => if state.sig = sig then some { state with foundSig := true } else none

/-- Dispatch a packet on its label. -/
def macaroonDispatchPacket (env : MacaroonEnv) (state : MacaroonState) (data : Bytes) :
    Option MacaroonState :=
  if state.foundSig then none
  else
    match labelled "cl " data with
    | some location => macaroonPacketCaveatLocation state location
    | none =>
      let state := { state with caveatLocationAllowed := false }
      match labelled "identifier " data with
      | some identifier => macaroonPacketIdentifier env state identifier
      | none =>
        match labelled "location " data with
        | some location => macaroonPacketLocation state location
        | none =>
          match labelled "cid " data with
          | some caveat => macaroonPacketCid env state caveat
          | none =>
            match labelled "vid " data with
            | some vid => macaroonPacketVid env state vid
            | none =>
              match labelled "signature " data with
              | some sig => macaroonPacketSignature state sig
              | none => none

/-- `macaroon_parse_packets`; every round takes four bytes or more. -/
def macaroonParsePackets (env : MacaroonEnv) :
    ℕ → MacaroonState → Bytes → Option MacaroonState
  | 0, state, bin => if bin = [] then some state else none
  | fuel + 1, state, bin =>
    if bin = [] then some state
    else
      match macaroonPacket bin with
      | none => none
      | some (data, rest) =>
        match macaroonDispatchPacket env state data with
        | none => none
        | some state =>
          if state.foundSig ∧ rest ≠ [] then none else macaroonParsePackets env fuel state rest

/-- The token has an expiry where it needs one, and it lies ahead. -/
def macaroonCheckExpiry (now : Option ℕ) (state : MacaroonState) : Bool :=
  if state.maxTp.isSome ∧ state.limits.beforeSeen = false then false
  else if state.limits.beforeSeen then
    match now with
    | none => false
    | some now => (now : ℤ) < state.limits.exp
  else true

/-- The claims of `macaroon_finalize_scopes`. -/
def macaroonFinalizeScopes (state : MacaroonState) : Option TokenClaims :=
  let claims : TokenClaims :=
    { TokenClaims.zero with
      sub := state.sub
      iss := state.iss
      exp := state.limits.exp
      scopeRaw := state.limits.scopeBuf
      scopes := tokenParseScopes state.limits.scopeBuf maxTokenScopes }
  if state.limits.pathCaveats = [] then some claims
  else macaroonApplyPathCaveats claims state.limits.pathCaveats

/-- What a parse leaves: the claims, the caveats and the third-party caveats captured. -/
structure MacaroonParsed : Type where
  claims : TokenClaims
  limits : MacaroonLimits
  tps : List MacaroonTp
  deriving DecidableEq

/-- Parse a token, verify its chain and build its claims. -/
def macaroonParseCore (env : MacaroonEnv) (key : Bytes) (maxTp : Option ℕ)
    (bin : Bytes) : Option MacaroonParsed :=
  if bin = [] ∨ key = [] then none
  else
    match macaroonParsePackets env bin.length (macaroonParseStateInit key maxTp) bin with
    | none => none
    | some state =>
      if state.foundId = false ∨ state.foundSig = false then none
      else if macaroonCheckExpiry env.now state = false then none
      else
        (macaroonFinalizeScopes state).map fun claims => ⟨claims, state.limits, state.tps⟩

/-! ### The bundle -/

def macaroonMaxDischarges : ℕ := 8

def macaroonMaxTpCaveats : ℕ := 8

/-- The root and at most eight discharges. -/
def macaroonBundleTokenize (token : Bytes) : Option (List Bytes) :=
  let tokens := Words.words 32 token
  if macaroonMaxDischarges + 1 < tokens.length ∨ tokens = [] then none else some tokens

def macaroonScanContent (data : Bytes) : Bytes :=
  if data.getLast? = some 10 then data.dropLast else data

/-- `macaroon_candidate_matches_cid`: its first identifier. -/
def macaroonCandidateMatchesCid (cid : Bytes) : ℕ → Bytes → Bool
  | 0, _ => false
  | fuel + 1, candidate =>
    if candidate.length < 4 then false
    else
      match macaroonPacketLen candidate with
      | none => false
      | some plen =>
        if plen < 4 ∨ candidate.length < plen then false
        else
          match labelled "identifier " (macaroonScanContent ((candidate.take plen).drop 4)) with
          | some identifier => identifier = cid
          | none => macaroonCandidateMatchesCid cid fuel (candidate.drop plen)

/-- The discharge key sealed in a `vid`. -/
def macaroonDecryptVid (env : MacaroonEnv) (tp : MacaroonTp) : Option Bytes :=
  if tp.vid.length ≠ macaroonVidLen then none
  else
    match env.aesDecrypt tp.sigBefore (tp.vid.take 16) (tp.vid.drop 16) with
    | none => none
    | some plain => if plain.length = 32 then some plain else none

/-- A candidate that `macaroon_find_discharge` comes to and
`macaroon_parse_discharge_candidate` accepts. -/
def macaroonDischarge (env : MacaroonEnv) (cid key token : Bytes) : Option MacaroonParsed :=
  match b64urlDecode env.evpDecode token b64DecodeMax with
  | none => none
  | some bin =>
    if bin.length < 4 ∨ macaroonCandidateMatchesCid cid bin.length bin = false then none
    else macaroonParseCore env key none bin

/-- The first of the tokens that is not used and is accepted. -/
def macaroonFindDischarge (env : MacaroonEnv) (cid key : Bytes) (used : List ℕ) :
    List (Bytes × ℕ) → Option (ℕ × MacaroonParsed)
  | [] => none
  | (token, i) :: tokens =>
    if i ∈ used then macaroonFindDischarge env cid key used tokens
    else
      match macaroonDischarge env cid key token with
      | some result => some (i, result)
      | none => macaroonFindDischarge env cid key used tokens

/-- Narrow the claims by a discharge's limits. -/
def macaroonIntersectDischargeClaims (claims : TokenClaims) (d : MacaroonParsed) :
    Option TokenClaims :=
  let claims :=
    if d.limits.beforeSeen ∧ (claims.exp = 0 ∨ d.claims.exp < claims.exp) then
      { claims with exp := d.claims.exp }
    else claims
  if d.limits.activitySeen then macaroonIntersectClaimScopes claims d.claims
  else if d.limits.pathCaveats = [] then some claims
  else macaroonApplyPathCaveats claims d.limits.pathCaveats

/-- `macaroon_validate_one_discharge`, for each caveat in turn -/
def macaroonValidateEach (env : MacaroonEnv) (discharges : List Bytes) (used : List ℕ)
    (claims : TokenClaims) : List MacaroonTp → Option TokenClaims
  | [] => some claims
  | tp :: tps =>
    match macaroonDecryptVid env tp with
    | none => none
    | some key =>
      match macaroonFindDischarge env tp.cid key used discharges.zipIdx with
      | none => none
      | some (i, result) =>
        match macaroonIntersectDischargeClaims claims result with
        | none => none
        | some claims => macaroonValidateEach env discharges (i :: used) claims tps

/-- As many discharges as third party caveats, each used once. -/
def macaroonValidateDischarges (env : MacaroonEnv) (discharges : List Bytes)
    (tps : List MacaroonTp) (claims : TokenClaims) : Option TokenClaims :=
  if discharges.length ≠ tps.length then none
  else macaroonValidateEach env discharges [] claims tps

/-- Validate the root, then its discharges. -/
def macaroonValidateBundle (env : MacaroonEnv) (rootKey token : Bytes) :
    Option TokenClaims :=
  match macaroonBundleTokenize token with
  | none => none
  | some [] => none
  | some (root :: discharges) =>
    match b64urlDecode env.evpDecode root b64DecodeMax with
    | none => none
    | some bin =>
      match macaroonParseCore env rootKey (some macaroonMaxTpCaveats) bin with
      | none => none
      | some parsed => macaroonValidateDischarges env discharges parsed.tps parsed.claims

end BrixCache
