import BrixCache.Auth.Bundle
import BrixCache.Auth.Issue

/-!
# An issued macaroon is validated

The packets that are written are the packets that are read, so that a macaroon that is
issued validates with what it was issued for, as far as its text fits its buffer and its
expiry has a year of four digits.
-/

namespace BrixCache

open List

variable {env : MacaroonEnv} {st st' : MacaroonState} {t u : Bytes}
  {l : List (Bytes × Bytes)}

/-! ## Runs over packets -/

variable {fuel : ℕ} {limits : MacaroonLimits} {claims : TokenClaims}

theorem parsePackets_run (hl : ∀ q ∈ l, IsPacket q.1 q.2) (hfuel : l.length ≤ fuel)
    (hrun : (l.map (·.2)).foldlM (macaroonDispatchPacket env) st = some st') :
    macaroonParsePackets env fuel st (l.flatMap (·.1)) = some st' := by
  induction l generalizing fuel st with
  | nil =>
    cases hrun
    cases fuel <;> rfl
  | cons q l ih =>
    obtain ⟨hq, hl⟩ := forall_mem_cons.mp hl
    obtain ⟨fuel, rfl⟩ : ∃ k, fuel = k + 1 := ⟨fuel - 1, by rw [length_cons] at hfuel; omega⟩
    rw [map_cons, foldlM_cons, Option.bind_eq_bind, Option.bind_eq_some_iff] at hrun
    obtain ⟨st₁, hst₁, hrun⟩ := hrun
    have hne : q.1 ++ l.flatMap (·.1) ≠ [] := by
      have hlong := hq.long
      intro hnil
      rw [(append_eq_nil_iff.mp hnil).1] at hlong
      simp at hlong
    rw [flatMap_cons, macaroonParsePackets, if_neg hne, hq.read]
    simp only [hst₁]
    rw [if_neg, ih hl (by rw [length_cons] at hfuel; omega) hrun]
    rintro ⟨hfound, hrest⟩
    -- nothing is dispatched behind the signature
    cases l with
    | nil => exact hrest rfl
    | cons q' l =>
      rw [map_cons, foldlM_cons, Option.bind_eq_bind, Option.bind_eq_some_iff] at hrun
      obtain ⟨st₂, hst₂, -⟩ := hrun
      rw [(dispatched hst₂).1] at hfound
      cases hfound

/-- A cut token has no signature packet. -/
theorem parsePackets_cut (hl : ∀ q ∈ l, IsPacket q.1 q.2)
    (hsig : ∀ q ∈ l.dropLast, labelled "signature " q.2 = none)
    (hcut : t ++ u = l.flatMap (·.1)) (hu : u ≠ []) (hfound : st.foundSig = false)
    (h : macaroonParsePackets env fuel st t = some st') : st'.foundSig = false := by
  induction l generalizing fuel st t with
  | nil => exact (hu (append_eq_nil_iff.mp hcut).2).elim
  | cons q l ih =>
    obtain ⟨hq, hl⟩ := forall_mem_cons.mp hl
    cases fuel with
    | zero =>
      rw [macaroonParsePackets] at h
      split at h
      · cases h
        exact hfound
      · cases h
    | succ fuel =>
      rw [macaroonParsePackets] at h
      split at h
      · cases h
        exact hfound
      rw [flatMap_cons] at hcut
      have hcases : (∃ t', t = q.1 ++ t' ∧ t' ++ u = l.flatMap (·.1)) ∨
          ∃ v, q.1 = t ++ v ∧ v ≠ [] := by
        obtain ⟨v, hqv, huv⟩ | ⟨t', ht, hrest⟩ := append_eq_append_iff.mp hcut
        · by_cases hv : v = []
          · rw [hv, append_nil] at hqv
            rw [hv, nil_append] at huv
            exact .inl ⟨[], by rw [hqv, append_nil], by rw [nil_append, huv]⟩
          · exact .inr ⟨v, hqv, hv⟩
        · exact .inl ⟨t', ht, hrest.symm⟩
      obtain ⟨t', rfl, hrest⟩ | ⟨v, hqv, hv⟩ := hcases
      · rw [hq.read] at h
        simp only at h
        split at h
        · cases h
        next st₁ hst₁ =>
        split at h
        · cases h
        -- some packet is behind this one
        have hne : l ≠ [] := by
          rintro rfl
          exact hu (append_eq_nil_iff.mp hrest).2
        have hlabel := hsig q (by rw [dropLast_cons_of_ne_nil hne]; exact mem_cons_self)
        refine ih hl ?_ hrest ?_ h
        · intro q' hq'
          exact hsig q' (by rw [dropLast_cons_of_ne_nil hne]; exact mem_cons_of_mem _ hq')
        · by_contra hfound₁
          obtain ⟨-, hd⟩ := (dispatched hst₁).2.foundSig hfound (by simpa using hfound₁)
          rw [hd, labelled_append] at hlabel
          cases hlabel
      · rw [hq.cut hqv hv] at h
        cases h

theorem packetsFrom_run (hl : ∀ q ∈ l, IsPacket q.1 q.2) (hfuel : l.length ≤ fuel) :
    packetsFrom fuel (l.flatMap (·.1)) = l.map (·.2) := by
  induction l generalizing fuel with
  | nil => cases fuel <;> rfl
  | cons q l ih =>
    obtain ⟨hq, hl⟩ := forall_mem_cons.mp hl
    obtain ⟨fuel, rfl⟩ : ∃ k, fuel = k + 1 := ⟨fuel - 1, by rw [length_cons] at hfuel; omega⟩
    rw [flatMap_cons, packetsFrom, hq.read]
    simp only [map_cons]
    rw [ih hl (by rw [length_cons] at hfuel; omega)]

/-! ## What is issued -/

/-- The bytes and the content of a packet with a newline. -/
def line (label : String) (value : Bytes) : Bytes × Bytes :=
  (hex4 (4 + (ascii label).length + value.length + 1) ++ ascii label ++ value ++ [10],
    ascii label ++ value)

/-- The caveats an issue call writes. -/
def issuedCaveats (activities path : Bytes) (expiry : ℤ) : List Bytes :=
  (if activities = [] then [] else [ascii "activity:" ++ activities]) ++
  (if path = [] then [] else [ascii "path:" ++ path]) ++
  if expiry ≤ 0 then [] else [ascii "before:" ++ timestamp (gmtime expiry)]

/-- The chain of signatures over caveats. -/
def issuedSig (env : MacaroonEnv) (rootKey identifier : Bytes)
    (caveats : List Bytes) : Bytes :=
  caveats.foldl env.hmac (env.hmac rootKey identifier)

/-- The packets before the signature. -/
def issuedLines (location identifier : Bytes) (caveats : List Bytes) :
    List (Bytes × Bytes) :=
  (if location = [] then [] else [line "location " location]) ++
    line "identifier " identifier :: caveats.map (line "cid ")

/-- The packets of an issued token. -/
def issued (env : MacaroonEnv) (rootKey location identifier : Bytes)
    (caveats : List Bytes) : List (Bytes × Bytes) :=
  issuedLines location identifier caveats ++
    [(hex4 46 ++ ascii "signature " ++ issuedSig env rootKey identifier caveats,
      ascii "signature " ++ issuedSig env rootKey identifier caveats)]

variable {rootKey location identifier activities path bin : Bytes} {expiry : ℤ}
  {caveats more : List Bytes} {ist ist' ist'' : IssueState}

theorem writePacket_some {label : String} {value bin' : Bytes}
    (h : writePacket bin label value = some bin') : bin' = bin ++ (line label value).1 := by
  rw [writePacket] at h
  split at h
  · cases h
  · exact (Option.some.inj h).symm

/-- Caveats were written, and the chain went over them. -/
def Emitted (env : MacaroonEnv) (ist ist' : IssueState) (caveats : List Bytes) : Prop :=
  ist'.bin = ist.bin ++ (caveats.map (line "cid ")).flatMap (·.1) ∧
    ist'.sig = caveats.foldl env.hmac ist.sig

theorem Emitted.none : Emitted env ist ist [] := ⟨by simp, rfl⟩

theorem Emitted.trans (h : Emitted env ist ist' caveats) (h' : Emitted env ist' ist'' more) :
    Emitted env ist ist'' (caveats ++ more) := by
  refine ⟨?_, ?_⟩
  · rw [h'.1, h.1, map_append, flatMap_append, append_assoc]
  · rw [h'.2, h.2, foldl_append]

theorem emitCidCaveat_some {caveat : Bytes} (h : emitCidCaveat env ist caveat = some ist') :
    Emitted env ist ist' [caveat] := by
  rw [emitCidCaveat, Option.map_eq_some_iff] at h
  obtain ⟨bin, hbin, rfl⟩ := h
  refine ⟨?_, rfl⟩
  rw [writePacket_some hbin]
  simp

theorem emitUnless_some {absent long : Prop} [Decidable absent] [Decidable long]
    {caveat : Bytes}
    (h : (if absent then some ist else if long then none else emitCidCaveat env ist caveat) =
      some ist') : Emitted env ist ist' (if absent then [] else [caveat]) := by
  split at h
  · next habsent =>
    cases h
    rw [if_pos habsent]
    exact .none
  · next habsent =>
    split at h
    · cases h
    · rw [if_neg habsent]
      exact emitCidCaveat_some h

theorem emitActivityCaveat_some (h : emitActivityCaveat env ist activities = some ist') :
    Emitted env ist ist' (if activities = [] then [] else [ascii "activity:" ++ activities]) :=
  emitUnless_some h

theorem emitPathCaveat_some (h : emitPathCaveat env ist path = some ist') :
    Emitted env ist ist' (if path = [] then [] else [ascii "path:" ++ path]) :=
  emitUnless_some h

theorem emitExpiryCaveat_some (h : emitExpiryCaveat env ist expiry = some ist') :
    Emitted env ist ist'
      (if expiry ≤ 0 then [] else [ascii "before:" ++ timestamp (gmtime expiry)]) :=
  emitUnless_some h

theorem issuePackets_some
    (h : issuePackets env rootKey location identifier activities path expiry = some bin) :
    bin = (issued env rootKey location identifier
      (issuedCaveats activities path expiry)).flatMap (·.1) := by
  simp only [issuePackets, Option.bind_eq_bind, Option.bind_eq_some_iff] at h
  obtain ⟨ist₁, h₁, ist₂, h₂, ist₃, h₃, ist₄, h₄, ist₅, h₅, h₆⟩ := h
  have hloc : ist₁.bin = (if location = [] then [] else [line "location " location]).flatMap
      (·.1) := by
    rw [emitLocation] at h₁
    split at h₁
    · next hnil =>
      cases h₁
      rw [if_pos hnil]
      rfl
    · next hnil =>
      obtain ⟨bin₁, hbin₁, rfl⟩ := Option.map_eq_some_iff.mp h₁
      rw [if_neg hnil]
      simp [writePacket_some hbin₁]
  obtain ⟨bin₂, hbin₂, rfl⟩ := Option.map_eq_some_iff.mp h₂
  have hcaveats := ((emitActivityCaveat_some h₃).trans (emitPathCaveat_some h₄)).trans
    (emitExpiryCaveat_some h₅)
  rw [emitSignature] at h₆
  split at h₆
  · cases h₆
  rw [← Option.some.inj h₆, hcaveats.1, hcaveats.2, writePacket_some hbin₂, hloc]
  simp [issued, issuedLines, issuedCaveats, issuedSig]

theorem length_issuedSig : (issuedSig env rootKey identifier caveats).length = 32 := by
  rw [issuedSig]
  have hall : ∀ sig : Bytes, sig.length = 32 → (caveats.foldl env.hmac sig).length = 32 := by
    induction caveats with
    | nil => exact fun sig h => h
    | cons c caveats ih => exact fun sig _ => ih (env.hmac sig c) (env.hmac_length sig c)
  exact hall _ (env.hmac_length rootKey identifier)

theorem isPacket_issued (env : MacaroonEnv) (rootKey : Bytes) (hloc : location.length < 256)
    (hid : identifier.length < 256) (hcaveats : ∀ c ∈ caveats, c.length < macaroonMaxCidLen) :
    ∀ q ∈ issued env rootKey location identifier caveats, IsPacket q.1 q.2 := by
  intro q hq
  have hlen : ∀ label ∈ ["location ", "identifier ", "cid "], (ascii label).length ≤ 11 := by
    decide
  simp only [issued, issuedLines, mem_append, mem_cons, mem_map,
    not_mem_nil, or_false] at hq
  obtain (hq | rfl | ⟨c, hc, rfl⟩) | rfl := hq
  · split at hq
    · cases hq
    · rw [mem_singleton.mp hq]
      have hlabel := hlen "location " (by simp)
      exact isPacket_line (by omega) (by decide)
  · have hlabel := hlen "identifier " (by simp)
    exact isPacket_line (by omega) (by decide)
  · have hlabel := hlen "cid " (by simp)
    have hshort := hcaveats c hc
    rw [macaroonMaxCidLen] at hshort
    exact isPacket_line (by omega) (by decide)
  · exact isPacket_signature length_issuedSig

theorem labelled_issuedLines (location identifier : Bytes) (caveats : List Bytes) :
    ∀ q ∈ issuedLines location identifier caveats, labelled "signature " q.2 = none := by
  intro q hq
  simp only [issuedLines, mem_append, mem_cons, mem_map] at hq
  obtain hq | rfl | ⟨c, hc, rfl⟩ := hq
  · split at hq
    · cases hq
    · rw [mem_singleton.mp hq]
      exact labelled_of_ne (by decide)
  · exact labelled_of_ne (by decide)
  · exact labelled_of_ne (by decide)

/-! ## What is read -/

/-- The parser's state behind the packets that the issuer wrote -/
structure IssueRead (env : MacaroonEnv) (rootKey location identifier : Bytes)
    (caveats : List Bytes) (st : MacaroonState) : Prop where
  iss : st.iss = location
  sub : st.sub = identifier
  foundId : st.foundId = true
  foundSig : st.foundSig = false
  maxTp : st.maxTp = some macaroonMaxTpCaveats
  tps : st.tps = []
  sig : st.sig = issuedSig env rootKey identifier caveats
  finalized : st.finalized = caveats.foldlM macaroonParseFirstPartyCaveat .zero

theorem dispatch_location (hloc : location.length < 256)
    (hvalid : macaroonTextValueValid location = true) (hfound : st.foundSig = false)
    (hid : st.foundId = false) (hno : st.foundLocation = false) :
    macaroonDispatchPacket env st (ascii "location " ++ location) =
      some { st with caveatLocationAllowed := false, iss := location, foundLocation := true } := by
  rw [macaroonDispatchPacket, if_neg (by simp [hfound]), labelled_of_ne (by decide)]
  simp only
  rw [labelled_of_ne (by decide), labelled_append]
  simp only
  rw [macaroonPacketLocation, if_neg]
  simp [hid, hno, hvalid, hloc]

theorem dispatch_identifier (hid : identifier.length < 256)
    (hvalid : macaroonTextValueValid identifier = true) (hfound : st.foundSig = false)
    (hno : st.foundId = false) (hcid : st.lastCid = none) :
    macaroonDispatchPacket env st (ascii "identifier " ++ identifier) =
      some { st with
        caveatLocationAllowed := false
        sig := env.hmac st.key identifier
        sub := identifier
        foundId := true } := by
  rw [macaroonDispatchPacket, if_neg (by simp [hfound]), labelled_of_ne (by decide)]
  simp only
  rw [labelled_append]
  simp only
  rw [macaroonPacketIdentifier, if_neg]
  simp [hno, hcid, hvalid, hid]

theorem IssueRead.cid (h : IssueRead env rootKey location identifier caveats st)
    {caveat : Bytes} (hlen : caveat.length < macaroonMaxCidLen)
    (hvalid : macaroonTextValueValid caveat = true)
    (hlimits : caveats.foldlM macaroonParseFirstPartyCaveat .zero = some limits) :
    ∃ st', macaroonDispatchPacket env st (ascii "cid " ++ caveat) = some st' ∧
      IssueRead env rootKey location identifier (caveats ++ [caveat]) st' := by
  have hfinal := h.finalized.trans hlimits
  refine ⟨{ st with
      caveatLocationAllowed := false
      limits
      sigBeforeCid := st.sig
      sig := env.hmac st.sig caveat
      lastCid := some caveat }, ?_, ?_⟩
  · rw [macaroonDispatchPacket, if_neg (by simp [h.foundSig]), labelled_of_ne (by decide)]
    simp only
    rw [labelled_of_ne (by decide), labelled_of_ne (by decide), labelled_append]
    simp only
    rw [macaroonPacketCid, if_neg (by simp [h.foundId, hvalid, hlen]),
      macaroonFinalizePendingCid_eq]
    have hsame : MacaroonState.finalized { st with caveatLocationAllowed := false } =
        st.finalized := rfl
    rw [hsame, hfinal]
    rfl
  · refine ⟨h.iss, h.sub, h.foundId, h.foundSig, h.maxTp, h.tps, ?_, ?_⟩
    · rw [issuedSig, foldl_concat, ← issuedSig, ← h.sig]
    · rw [foldlM_append, hlimits]
      rfl

theorem IssueRead.run (h : IssueRead env rootKey location identifier caveats st)
    (hmore : ∀ c ∈ more, c.length < macaroonMaxCidLen ∧ macaroonTextValueValid c = true)
    (hlimits : (caveats ++ more).foldlM macaroonParseFirstPartyCaveat .zero = some limits) :
    ∃ st', (more.map fun c => ascii "cid " ++ c).foldlM (macaroonDispatchPacket env) st =
        some st' ∧
      IssueRead env rootKey location identifier (caveats ++ more) st' := by
  induction more generalizing st caveats with
  | nil => exact ⟨st, rfl, by rwa [append_nil]⟩
  | cons c more ih =>
    obtain ⟨⟨hlen, hvalid⟩, hmore⟩ := forall_mem_cons.mp hmore
    have hprefix := hlimits
    rw [foldlM_append, Option.bind_eq_bind, Option.bind_eq_some_iff] at hprefix
    obtain ⟨limits₁, hlimits₁, -⟩ := hprefix
    obtain ⟨st₁, hst₁, h₁⟩ := h.cid hlen hvalid hlimits₁
    obtain ⟨st', hst', h'⟩ := ih h₁ hmore (by rwa [append_assoc])
    refine ⟨st', ?_, by rwa [append_assoc] at h'⟩
    rw [map_cons, foldlM_cons, hst₁]
    exact hst'

theorem issueRead_init (hloc : location.length < 256)
    (hlocation : location = [] ∨ macaroonTextValueValid location = true)
    (hid : identifier.length < 256) (hidentifier : macaroonTextValueValid identifier = true) :
    ∃ st, ((issuedLines location identifier []).map (·.2)).foldlM (macaroonDispatchPacket env)
        (macaroonParseStateInit rootKey (some macaroonMaxTpCaveats)) = some st ∧
      IssueRead env rootKey location identifier [] st := by
  by_cases hnil : location = []
  · refine ⟨{ macaroonParseStateInit rootKey (some macaroonMaxTpCaveats) with
        caveatLocationAllowed := false
        sig := env.hmac rootKey identifier
        sub := identifier
        foundId := true }, ?_, hnil.symm, rfl, rfl, rfl, rfl, rfl, rfl, rfl⟩
    rw [issuedLines, if_pos hnil]
    simp only [map_nil, nil_append, map_cons, line, foldlM_cons]
    rw [dispatch_identifier hid hidentifier rfl rfl rfl]
    rfl
  · refine ⟨{ macaroonParseStateInit rootKey (some macaroonMaxTpCaveats) with
        caveatLocationAllowed := false
        iss := location
        foundLocation := true
        sig := env.hmac rootKey identifier
        sub := identifier
        foundId := true }, ?_, rfl, rfl, rfl, rfl, rfl, rfl, rfl, rfl⟩
    rw [issuedLines, if_neg hnil]
    simp only [map_nil, singleton_append, map_cons, line, foldlM_cons]
    rw [dispatch_location hloc (hlocation.resolve_left hnil) rfl rfl rfl]
    simp only [Option.bind_eq_bind, Option.bind_some]
    rw [dispatch_identifier hid hidentifier rfl rfl rfl]
    rfl

theorem IssueRead.signature (h : IssueRead env rootKey location identifier caveats st)
    (hlimits : caveats.foldlM macaroonParseFirstPartyCaveat .zero = some limits) :
    macaroonDispatchPacket env st
        (ascii "signature " ++ issuedSig env rootKey identifier caveats) =
      some { st with
        caveatLocationAllowed := false
        limits
        lastCid := none
        foundSig := true } := by
  have hfinal := h.finalized.trans hlimits
  rw [macaroonDispatchPacket, if_neg (by simp [h.foundSig]), labelled_of_ne (by decide)]
  simp only
  rw [labelled_of_ne (by decide), labelled_of_ne (by decide), labelled_of_ne (by decide),
    labelled_of_ne (by decide), labelled_append]
  simp only
  rw [macaroonPacketSignature, if_neg (by simp [h.foundId, h.foundSig, length_issuedSig]),
    macaroonFinalizePendingCid_eq]
  have hsame : MacaroonState.finalized { st with caveatLocationAllowed := false } =
      st.finalized := rfl
  rw [hsame, hfinal]
  exact if_pos h.sig

/-- The parser on the packets of the issuer -/
theorem issued_parsed (env : MacaroonEnv) (rootKey : Bytes) (hloc : location.length < 256)
    (hlocation : location = [] ∨ macaroonTextValueValid location = true)
    (hid : identifier.length < 256) (hidentifier : macaroonTextValueValid identifier = true)
    (hcaveats : ∀ c ∈ caveats, c.length < macaroonMaxCidLen ∧ macaroonTextValueValid c = true)
    (hlimits : caveats.foldlM macaroonParseFirstPartyCaveat .zero = some limits) :
    ∃ st, (((issued env rootKey location identifier caveats).map (·.2)).foldlM
        (macaroonDispatchPacket env)
        (macaroonParseStateInit rootKey (some macaroonMaxTpCaveats)) = some st) ∧
      st.iss = location ∧ st.sub = identifier ∧ st.foundId = true ∧ st.foundSig = true ∧
      st.tps = [] ∧ st.limits = limits := by
  obtain ⟨st₁, hst₁, h₁⟩ : ∃ st, ((issuedLines location identifier []).map (·.2)).foldlM
      (macaroonDispatchPacket env) (macaroonParseStateInit rootKey (some macaroonMaxTpCaveats)) =
        some st ∧ IssueRead env rootKey location identifier [] st :=
    issueRead_init hloc hlocation hid hidentifier
  obtain ⟨st₂, hst₂, h₂⟩ := h₁.run hcaveats hlimits
  rw [nil_append] at h₂
  refine ⟨{ st₂ with
      caveatLocationAllowed := false
      limits
      lastCid := none
      foundSig := true }, ?_, h₂.iss, h₂.sub, h₂.foundId, rfl, h₂.tps, rfl⟩
  have hcontents : (issued env rootKey location identifier caveats).map (·.2) =
      (issuedLines location identifier []).map (·.2) ++
        (caveats.map fun c => ascii "cid " ++ c) ++
        [ascii "signature " ++ issuedSig env rootKey identifier caveats] := by
    simp [issued, issuedLines, line]
  rw [hcontents, foldlM_append, foldlM_append, hst₁]
  simp only [Option.bind_eq_bind, Option.bind_some]
  rw [hst₂, Option.bind_some, foldlM_cons, h₂.signature hlimits]
  rfl

/-! ## What the caveats leave -/

variable {limits : MacaroonLimits} {perm : Permission} {q : Bytes}
  {acts : List Bytes}

theorem parse_path (hpath : tokenScopePathIsCanonical path = true)
    (hshort : path.length < scopePathMax) (hfew : limits.pathCaveats = []) :
    macaroonParseFirstPartyCaveat limits (ascii "path:" ++ path) =
      some { limits with pathCaveats := [path] } := by
  rw [macaroonParseFirstPartyCaveat, labelled_of_ne (by decide)]
  simp only
  rw [labelled_of_ne (by decide), labelled_append]
  simp only
  rw [macaroonParsePathCaveat, if_neg (by simp [hfew, hshort, hpath]), hfew]
  rfl

theorem parse_before (hexpiry : 0 < expiry) (hyear : (gmtime expiry).year ≤ 9999)
    (hno : limits.beforeSeen = false) :
    macaroonParseFirstPartyCaveat limits (ascii "before:" ++ timestamp (gmtime expiry)) =
      some { limits with exp := expiry, beforeSeen := true } := by
  rw [macaroonParseFirstPartyCaveat, labelled_of_ne (by decide)]
  simp only
  rw [labelled_append]
  simp only
  rw [macaroonParseBeforeCaveat, parseIso8601_expiry hexpiry hyear]
  simp [hno]

/-- The limits that an issued macaroon leaves -/
structure IssuedLimits (acts : List Bytes) (path : Bytes) (expiry : ℤ)
    (limits : MacaroonLimits) : Prop where
  sound : limits.Sound
  beforeSeen : limits.beforeSeen = true
  exp : limits.exp = expiry
  allow_iff : ∀ perm q, limits.activitySeen = true ∧ limits.Permits perm q ↔
    Gives acts perm ∧ tokenScopePathMatches path q = true

theorem parse_activities (hknown : ∀ a ∈ acts, (macaroonPermissionForActivity a).isSome = true) :
    ∃ limits, (if activitiesText acts = [] then []
        else [ascii "activity:" ++ activitiesText acts]).foldlM
        macaroonParseFirstPartyCaveat .zero = some limits ∧
      limits.Sound ∧ limits.beforeSeen = false ∧ limits.pathCaveats = [] ∧
      ∀ perm, limits.activitySeen = true ∧ limits.activityMask.has perm = true ↔
        Gives acts perm := by
  by_cases hnil : acts = []
  · refine ⟨.zero, ?_, MacaroonLimits.sound_zero, rfl, rfl, fun perm => ?_⟩
    · rw [if_pos ((activitiesText_eq_nil hknown).mpr hnil)]
      rfl
    · simp [MacaroonLimits.zero, Gives, hnil]
  · obtain ⟨m, hm, hhas⟩ := activityMask_text hnil hknown .empty
    have hbuf := rebuild_scopes m
    obtain ⟨buf, hbuf, -⟩ := Option.map_eq_some_iff.mp hbuf
    have hparse : macaroonParseFirstPartyCaveat .zero
        (ascii "activity:" ++ activitiesText acts) =
        some { MacaroonLimits.zero with activitySeen := true, activityMask := m, scopeBuf := buf } := by
      rw [macaroonParseFirstPartyCaveat, labelled_append]
      simp only
      rw [macaroonParseActivityCaveat, hm]
      simp [MacaroonLimits.zero, hbuf]
    refine ⟨_, ?_, (restricted hparse).sound MacaroonLimits.sound_zero, rfl, rfl, fun perm => ?_⟩
    · rw [if_neg fun h => hnil ((activitiesText_eq_nil hknown).mp h), foldlM_cons, hparse]
      rfl
    · rw [hhas]
      cases perm <;> simp [MacaroonActivity.empty, MacaroonActivity.has]

theorem issued_limits (hknown : ∀ a ∈ acts, (macaroonPermissionForActivity a).isSome = true)
    (hpath : tokenScopePathIsCanonical path = true) (hshort : path.length < scopePathMax)
    (hexpiry : 0 < expiry) (hyear : (gmtime expiry).year ≤ 9999) :
    ∃ limits, (issuedCaveats (activitiesText acts) path expiry).foldlM
        macaroonParseFirstPartyCaveat .zero = some limits ∧
      IssuedLimits acts path expiry limits := by
  have hne : path ≠ [] := (proper_of_canonical hpath).1
  obtain ⟨limits, hlimits, hsound, hno, hfew, hgives⟩ := parse_activities hknown
  have hp := parse_path hpath hshort hfew
  have hb : macaroonParseFirstPartyCaveat { limits with pathCaveats := [path] }
      (ascii "before:" ++ timestamp (gmtime expiry)) =
      some { limits with pathCaveats := [path], exp := expiry, beforeSeen := true } :=
    parse_before hexpiry hyear hno
  refine ⟨{ limits with pathCaveats := [path], exp := expiry, beforeSeen := true }, ?_, ?_⟩
  · rw [issuedCaveats, if_neg hne, if_neg (Int.not_le.mpr hexpiry), foldlM_append,
      foldlM_append, hlimits]
    simp [hp, hb]
  · refine ⟨(restricted hb).sound ((restricted hp).sound hsound), rfl, rfl, fun perm q => ?_⟩
    rw [← hgives, MacaroonLimits.Permits, forall_mem_singleton]
    constructor
    · rintro ⟨hseen, hmask, hcover⟩
      exact ⟨⟨hseen, hmask hseen⟩, hcover⟩
    · rintro ⟨⟨hseen, hmask⟩, hcover⟩
      exact ⟨hseen, fun _ => hmask, hcover⟩

/-! ## The round trip -/

/-- A path is the one of the macaroon or below it. -/
def EqualOrBelow (path q : Bytes) : Prop :=
  Segments.AtOrBelow slash (if path.getLast? = some slash then path.dropLast else path) q

/-- The token is accepted, and says what was issued. -/
def ValidatesAs (env : MacaroonEnv) (rootKey text location identifier : Bytes)
    (acts : List Bytes) (path : Bytes) (expiry : ℤ) : Prop :=
  ∃ claims, macaroonValidateBundle env rootKey text = some claims ∧
    claims.sub = identifier ∧ claims.iss = location ∧ claims.exp = expiry ∧
    ∀ q, q.head? = some slash →
      (tokenCheckRead claims.scopes q = true ↔ Gives acts .read ∧ EqualOrBelow path q) ∧
      (tokenCheckWrite claims.scopes q = true ↔
        (Gives acts .write ∨ Gives acts .modify) ∧ EqualOrBelow path q)

/-- The size of the packets of an issued macaroon whose expiry has a year of four digits. -/
def issuedSize (location identifier : Bytes) (acts : List Bytes)
    (path : Bytes) : ℕ :=
  (if location = [] then 0 else location.length + 14) + (identifier.length + 16) +
    (if acts = [] then 0 else (activitiesText acts).length + 18) + (path.length + 14) + 36 + 46

theorem matches_iff_equalOrBelow (hpath : tokenScopePathIsCanonical path = true)
    (hq : q.head? = some slash) :
    tokenScopePathMatches path q = true ↔ EqualOrBelow path q := by
  have hne : path ≠ [] := (proper_of_canonical hpath).1
  rw [matches_iff, EqualOrBelow]
  by_cases hroot : path = [slash]
  · have hbelow : [slash] <+: q := by
      cases q with
      | nil => cases hq
      | cons c q =>
        rw [head?_cons, Option.some.injEq] at hq
        exact ⟨q, by rw [hq]; rfl⟩
    rw [hroot]
    exact ⟨fun _ => .inr hbelow, fun _ => .inl rfl⟩
  · have htrim : trimSlash path =
        if path.getLast? = some slash then path.dropLast else path := by
      rw [trimSlash]
      by_cases hlast : path.getLast? = some slash
      · have hlong : 1 < path.length := by
          by_contra hle
          have hpos := length_pos_of_ne_nil hne
          have hone : path.length = 1 := by omega
          obtain ⟨c, rfl⟩ := length_eq_one_iff.mp hone
          rw [getLast?_singleton, Option.some.injEq] at hlast
          exact hroot (by rw [hlast])
        rw [if_pos ⟨hlong, hlast⟩, if_pos hlast]
      · rw [if_neg fun h => hlast h.2, if_neg hlast]
    rw [htrim]
    exact or_iff_right hroot

theorem length_line (label : String) (value : Bytes) :
    (line label value).1.length = 4 + (ascii label).length + value.length + 1 := by
  simp only [line, hex4, length_append, length_cons, length_nil]

theorem length_flatMap_le (hl : ∀ q ∈ l, IsPacket q.1 q.2) :
    l.length ≤ (l.flatMap (·.1)).length := by
  induction l with
  | nil => simp
  | cons q l ih =>
    obtain ⟨hq, hl⟩ := forall_mem_cons.mp hl
    have hlong := hq.long
    have hrest := ih hl
    rw [length_cons, flatMap_cons, length_append]
    omega

theorem length_timestamp (hexpiry : 0 < expiry) (hyear : (gmtime expiry).year ≤ 9999) :
    (timestamp (gmtime expiry)).length = 20 := by
  have hparse := parseIso8601_expiry hexpiry hyear
  by_contra hlen
  rw [parseIso8601, if_neg (by simp [macaroonTimestampShapeValid, hlen])] at hparse
  cases hparse

theorem length_issued (env : MacaroonEnv) (rootKey location identifier : Bytes)
    (hknown : ∀ a ∈ acts, (macaroonPermissionForActivity a).isSome = true)
    (hne : path ≠ []) (hexpiry : 0 < expiry) (hyear : (gmtime expiry).year ≤ 9999) :
    ((issued env rootKey location identifier
      (issuedCaveats (activitiesText acts) path expiry)).flatMap (·.1)).length =
        issuedSize location identifier acts path := by
  have htime := length_timestamp hexpiry hyear
  have hactivity : (ascii "activity:").length = 9 := by decide
  have hpath : (ascii "path:").length = 5 := by decide
  have hbefore : (ascii "before:").length = 7 := by decide
  have hcid : (ascii "cid ").length = 4 := by decide
  have hid : (ascii "identifier ").length = 11 := by decide
  have hloc : (ascii "location ").length = 9 := by decide
  have hsig : (ascii "signature ").length = 10 := by decide
  have hexp : ¬expiry ≤ 0 := Int.not_le.mpr hexpiry
  simp only [issued, issuedLines, issuedCaveats, issuedSize, if_neg hne, if_neg hexp,
    activitiesText_eq_nil hknown]
  by_cases hnil : location = [] <;> by_cases hacts : acts = [] <;>
    simp [hnil, hacts, length_line, length_issuedSig, hactivity, hpath, hbefore, hcid, hid,
      hloc, hsig, htime, hex4] <;> omega

theorem firstPartyFrom_cids {pending : Option Bytes} {sig : Bytes} :
    firstPartyFrom pending
        ((caveats.map fun c => ascii "cid " ++ c) ++ [ascii "signature " ++ sig]) =
      pending.toList ++ caveats := by
  induction caveats generalizing pending with
  | nil =>
    rw [map_nil, nil_append, firstPartyFrom_signature]
    rfl
  | cons c caveats ih =>
    rw [map_cons, cons_append, firstPartyFrom_cid, ih]
    rfl

theorem macaroonCaveats_issued
    (hl : ∀ q ∈ issued env rootKey location identifier caveats, IsPacket q.1 q.2) :
    macaroonCaveats ((issued env rootKey location identifier caveats).flatMap (·.1)) =
      caveats := by
  rw [macaroonCaveats, macaroonPackets, packetsFrom_run hl (length_flatMap_le hl)]
  have hcontents : (issued env rootKey location identifier caveats).map (·.2) =
      (if location = [] then [] else [ascii "location " ++ location]) ++
        (ascii "identifier " ++ identifier) :: ((caveats.map fun c => ascii "cid " ++ c) ++
          [ascii "signature " ++ issuedSig env rootKey identifier caveats]) := by
    by_cases hnil : location = [] <;> simp [issued, issuedLines, line, hnil]
  rw [hcontents]
  by_cases hnil : location = []
  · rw [if_pos hnil, nil_append, firstPartyFrom_other (by decide), firstPartyFrom_cids]
    rfl
  · rw [if_neg hnil, singleton_append, firstPartyFrom_other (by decide),
      firstPartyFrom_other (by decide), firstPartyFrom_cids]
    rfl

/-- What is issued fits the buffers of the parser. -/
theorem issuePackets_bounds (hshort : path.length < scopePathMax)
    (h : issuePackets env rootKey location identifier activities path expiry = some bin) :
    bin.length ≤ issueBinMax ∧
      ∀ c ∈ issuedCaveats activities path expiry, c.length < macaroonMaxCidLen := by
  simp only [issuePackets, Option.bind_eq_bind, Option.bind_eq_some_iff] at h
  obtain ⟨ist₁, h₁, ist₂, h₂, ist₃, h₃, ist₄, h₄, ist₅, h₅, h₆⟩ := h
  constructor
  · rw [emitSignature] at h₆
    split at h₆
    · cases h₆
    next hroom =>
    rw [← Option.some.inj h₆]
    obtain ⟨bin₂, -, rfl⟩ := Option.map_eq_some_iff.mp h₂
    have hcaveats := ((emitActivityCaveat_some h₃).trans (emitPathCaveat_some h₄)).trans
      (emitExpiryCaveat_some h₅)
    have hsig : ist₅.sig.length = 32 := by
      rw [hcaveats.2]
      exact length_issuedSig
    have hlabel : (ascii "signature ").length = 10 := by decide
    rw [issueBinMax] at hroom
    simp only [hex4, length_append, length_cons, length_nil, hsig, hlabel]
    rw [issueBinMax]
    omega
  · intro c hc
    rw [scopePathMax] at hshort
    rw [macaroonMaxCidLen]
    rw [issuedCaveats, mem_append, mem_append] at hc
    obtain (hc | hc) | hc := hc
    · rw [emitActivityCaveat] at h₃
      split at h₃
      · next hnil => simp [hnil] at hc
      next hnil =>
      simp only at h₃
      split at h₃
      · cases h₃
      next hlen =>
      rw [if_neg hnil] at hc
      rw [mem_singleton.mp hc]
      omega
    · split at hc
      · cases hc
      · rw [mem_singleton.mp hc, length_append]
        have hlabel : (ascii "path:").length = 5 := by decide
        omega
    · rw [emitExpiryCaveat] at h₅
      split at h₅
      · next hzero => simp [hzero] at hc
      next hzero =>
      simp only at h₅
      split at h₅
      · cases h₅
      next hlen =>
      rw [if_neg hzero] at hc
      rw [mem_singleton.mp hc]
      omega

theorem canonicalFrom_chars {prev : Option UInt8} {segment cs : Bytes}
    (h : canonicalFrom prev segment cs = true) : ∀ c ∈ cs, 0x20 ≤ c ∧ c ≠ 0x7f := by
  induction cs generalizing prev segment with
  | nil => exact nofun
  | cons c cs ih =>
    rw [canonicalFrom] at h
    split at h
    · cases h
    next hc =>
    have hvalid : 0x20 ≤ c ∧ c ≠ 0x7f := by
      simp only [Bool.or_eq_true, decide_eq_true_eq, not_or] at hc
      exact ⟨UInt8.not_lt.mp hc.1.1, hc.1.2⟩
    refine forall_mem_cons.mpr ⟨hvalid, ?_⟩
    split at h
    · exact ih h
    · split at h
      · cases h
      · exact ih h

theorem textValueValid_of_chars {s : Bytes} (hne : s ≠ [])
    (h : ∀ c ∈ s, 0x20 ≤ c ∧ c ≠ 0x7f) : macaroonTextValueValid s = true := by
  simp only [macaroonTextValueValid, Bool.and_eq_true, decide_eq_true_eq, all_eq_true]
  exact ⟨hne, h⟩

theorem digits_chars (fuel n : ℕ) : ∀ c ∈ decimalFrom fuel n, 0x20 ≤ c ∧ c ≠ 0x7f := by
  have hdigit : ∀ k < 10, 0x20 ≤ UInt8.ofNat (k + 48) ∧ UInt8.ofNat (k + 48) ≠ 0x7f := by
    decide
  induction fuel generalizing n with
  | zero => exact nofun
  | succ fuel ih =>
    intro c hc
    rw [decimalFrom, mem_append, mem_singleton] at hc
    obtain hc | rfl := hc
    · split at hc
      · cases hc
      · exact ih _ c hc
    · exact hdigit _ (Nat.mod_lt n (by decide))

theorem decimal_chars (width : ℕ) (n : ℤ) : ∀ c ∈ decimal width n, 0x20 ≤ c ∧ c ≠ 0x7f := by
  intro c hc
  rw [decimal, mem_append] at hc
  obtain hc | hc := hc
  · rw [eq_of_mem_replicate hc]
    decide
  · exact digits_chars _ _ c hc

theorem timestamp_chars (tm : Tm) : ∀ c ∈ timestamp tm, 0x20 ≤ c ∧ c ≠ 0x7f := by
  have hsep : ∀ c ∈ [(45 : UInt8), 84, 58, 90], 0x20 ≤ c ∧ c ≠ 0x7f := by decide +kernel
  simp only [timestamp, forall_mem_append, forall_mem_cons]
  exact ⟨⟨⟨⟨⟨⟨decimal_chars _ _, hsep 45 (by simp), decimal_chars _ _⟩, hsep 45 (by simp),
    decimal_chars _ _⟩, hsep 84 (by simp), decimal_chars _ _⟩, hsep 58 (by simp),
    decimal_chars _ _⟩, hsep 58 (by simp), decimal_chars _ _⟩, hsep 90 (by simp),
    fun _ h => by cases h⟩

theorem issuedCaveats_valid (expiry : ℤ) (hpath : tokenScopePathIsCanonical path = true)
    (hknown : ∀ a ∈ acts, (macaroonPermissionForActivity a).isSome = true) :
    ∀ c ∈ issuedCaveats (activitiesText acts) path expiry, macaroonTextValueValid c = true := by
  have hlabel : ∀ label ∈ ["activity:", "path:", "before:"],
      ascii label ≠ [] ∧ ∀ c ∈ ascii label, 0x20 ≤ c ∧ c ≠ 0x7f := by decide +kernel
  have hvalid : ∀ label ∈ ["activity:", "path:", "before:"], ∀ text : Bytes,
      (∀ c ∈ text, 0x20 ≤ c ∧ c ≠ 0x7f) → macaroonTextValueValid (ascii label ++ text) = true := by
    intro label hmem text htext
    obtain ⟨hne, hchars⟩ := hlabel label hmem
    exact textValueValid_of_chars (fun h => hne (append_eq_nil_iff.mp h).1)
      (forall_mem_append.mpr ⟨hchars, htext⟩)
  intro c hc
  rw [issuedCaveats, mem_append, mem_append] at hc
  obtain (hc | hc) | hc := hc
  · split at hc
    · cases hc
    · rw [mem_singleton.mp hc]
      exact hvalid "activity:" (by simp) _ (activitiesText_chars hknown)
  · split at hc
    · cases hc
    · rw [mem_singleton.mp hc]
      exact hvalid "path:" (by simp) _ (canonicalFrom_chars (Bool.and_eq_true_iff.mp hpath).2)
  · split at hc
    · cases hc
    · rw [mem_singleton.mp hc]
      exact hvalid "before:" (by simp) _ (timestamp_chars _)

theorem applyPathCaveats_texts {claims' : TokenClaims} {paths : List Bytes}
    (h : macaroonApplyPathCaveats claims paths = some claims') :
    claims'.sub = claims.sub ∧ claims'.iss = claims.iss := by
  unfold macaroonApplyPathCaveats at h
  simp only at h
  split at h
  · rw [macaroonRebuildScopeRaw, Option.map_eq_some_iff] at h
    obtain ⟨raw, -, rfl⟩ := h
    exact ⟨rfl, rfl⟩
  · cases h
    exact ⟨rfl, rfl⟩

theorem finalizeScopes_texts (h : macaroonFinalizeScopes st = some claims) :
    claims.sub = st.sub ∧ claims.iss = st.iss := by
  unfold macaroonFinalizeScopes at h
  simp only at h
  split at h
  · cases h
    exact ⟨rfl, rfl⟩
  · exact applyPathCaveats_texts h

theorem validateBundle_alone {text : Bytes} {parsed : MacaroonParsed}
    (hwords : Words.words 32 text = [text])
    (hdecode : b64urlDecode env.evpDecode text b64DecodeMax = some bin)
    (hparsed : macaroonParseCore env rootKey (some macaroonMaxTpCaveats) bin = some parsed)
    (htps : parsed.tps = []) :
    macaroonValidateBundle env rootKey text = some parsed.claims := by
  rw [validateBundle_eq hwords (by simp), hdecode, Option.bind_some, hparsed, Option.bind_some,
    macaroonValidateDischarges, htps]
  rfl

/-- **An issued macaroon** is accepted, and says what was asked for. -/
theorem issued_validates {now : ℕ} (hnow : env.now = some now) (hexpiry : now < expiry)
    (hrootKey : rootKey ≠ []) (hid : identifier.length < 256)
    (hidentifier : macaroonTextValueValid identifier = true) (hloc : location.length < 256)
    (hlocation : location = [] ∨ macaroonTextValueValid location = true)
    (hpath : tokenScopePathIsCanonical path = true) (hshort : path.length < scopePathMax)
    (hknown : ∀ a ∈ acts, (macaroonPermissionForActivity a).isSome = true)
    (hlens : ∀ c ∈ issuedCaveats (activitiesText acts) path expiry, c.length < macaroonMaxCidLen)
    (hbin : bin = (issued env rootKey location identifier
      (issuedCaveats (activitiesText acts) path expiry)).flatMap (·.1))
    (hdecode : b64urlDecode env.evpDecode (b64url bin) b64DecodeMax = some bin)
    (hyear : (gmtime expiry).year ≤ 9999) :
    ValidatesAs env rootKey (b64url bin) location identifier acts path expiry := by
  obtain ⟨limits, hlimits, hissued⟩ := issued_limits hknown hpath hshort (by omega) hyear
  have hvalid := issuedCaveats_valid expiry hpath hknown
  obtain ⟨st, hst, hiss, hsub, hfound, hsig, htps, hsame⟩ := issued_parsed env rootKey hloc hlocation
    hid hidentifier (fun c hc => ⟨hlens c hc, hvalid c hc⟩) hlimits
  have hl := isPacket_issued env rootKey hloc hid hlens
  have hne : bin ≠ [] := by
    rw [hbin, issued]
    simp [hex4]
  have hparse : macaroonParsePackets env bin.length
      (macaroonParseStateInit rootKey (some macaroonMaxTpCaveats)) bin = some st := by
    rw [hbin]
    exact parsePackets_run hl (length_flatMap_le hl) hst
  rw [← hsame] at hissued
  obtain ⟨claims, hclaims, hof⟩ := finalizeScopes_spec st hissued.sound
  obtain ⟨path', hu⟩ := hof.uniform
  obtain ⟨hclaimsSub, hclaimsIss⟩ := finalizeScopes_texts hclaims
  have hlive : macaroonCheckExpiry env.now st = true := by
    unfold macaroonCheckExpiry
    rw [if_neg (by simp [hissued.beforeSeen]), if_pos hissued.beforeSeen, hnow]
    simpa [hissued.exp] using hexpiry
  have hcore : macaroonParseCore env rootKey (some macaroonMaxTpCaveats) bin =
      some ⟨claims, st.limits, st.tps⟩ := by
    rw [macaroonParseCore, if_neg (by simp [hne, hrootKey]), hparse]
    simp only
    rw [if_neg (by simp [hfound, hsig]), if_neg (by simp [hlive]), hclaims]
    rfl
  have hwords : Words.words 32 (b64url bin) = [b64url bin] := by
    refine Words.words_eq_self space_notMem_b64url fun hnil => ?_
    have hlen := length_b64url bin
    have hpos := length_pos_of_ne_nil hne
    rw [hnil, length_nil] at hlen
    omega
  have hallow : ∀ perm q, q.head? = some slash → (ScopesAllow claims.scopes perm q ↔
      Gives acts perm ∧ EqualOrBelow path q) := by
    intro perm q hq
    rw [hof.allow_iff, hissued.allow_iff, matches_iff_equalOrBelow hpath hq]
  refine ⟨claims, validateBundle_alone hwords hdecode hcore htps, hclaimsSub.trans hsub,
    hclaimsIss.trans hiss, hof.exp.trans hissued.exp, fun q hq => ⟨?_, ?_⟩⟩
  · rw [checkRead_iff, hallow .read q hq]
  · rw [checkWrite_iff fun s hs => (hu.one s hs).2, hallow .write q hq, hallow .modify q hq,
      or_and_right]

/-- A prefix of an issued macaroon that is accepted is the whole. -/
theorem whole_of_validates {n : ℕ} (hl : ∀ q ∈ issued env rootKey location identifier
      (issuedCaveats activities path expiry), IsPacket q.1 q.2)
    (hbin : bin = (issued env rootKey location identifier
      (issuedCaveats activities path expiry)).flatMap (·.1))
    (hexpiry : 0 < expiry) (hn : n ≤ bin.length)
    (hdecode : b64urlDecode env.evpDecode (b64url (bin.take n)) b64DecodeMax =
      some (bin.take n))
    (h : macaroonValidateBundle env rootKey (b64url (bin.take n)) = some claims) :
    n = bin.length ∧ (gmtime expiry).year ≤ 9999 := by
  obtain ⟨root, discharges, parsed, hacc⟩ := bundleAccepted h
  have hroot : root = b64url (bin.take n) := by
    have hwords := hacc.words
    by_cases hnil : b64url (bin.take n) = []
    · rw [hnil] at hwords
      cases hwords
    · rw [Words.words_eq_self space_notMem_b64url hnil] at hwords
      exact (cons.inj hwords).1.symm
  obtain ⟨bin', hbin', hcore, haccepted⟩ := hacc.accepted
  rw [hroot, hdecode] at hbin'
  cases hbin'
  have hwhole : n = bin.length := by
    by_contra hshort
    have hrest : bin.drop n ≠ [] := by
      rw [Ne, drop_eq_nil_iff]
      omega
    rw [macaroonParseCore] at hcore
    split at hcore
    · cases hcore
    split at hcore
    · cases hcore
    next st hst =>
    split at hcore
    · cases hcore
    next hfound =>
    have hcut : bin.take n ++ bin.drop n = (issued env rootKey location identifier
        (issuedCaveats activities path expiry)).flatMap (·.1) := by
      rw [take_append_drop, hbin]
    have hlast : ∀ q ∈ (issued env rootKey location identifier
        (issuedCaveats activities path expiry)).dropLast, labelled "signature " q.2 = none := by
      rw [issued, dropLast_concat]
      exact labelled_issuedLines _ _ _
    have hno := parsePackets_cut hl hlast hcut hrest rfl hst
    exact hfound (.inr hno)
  refine ⟨hwhole, ?_⟩
  by_contra hyear
  have hcaveats := haccepted.caveats
  rw [hwhole, take_length, hbin, macaroonCaveats_issued hl, issuedCaveats,
    if_neg (Int.not_le.mpr hexpiry), foldlM_append, Option.bind_eq_bind,
    Option.bind_eq_some_iff] at hcaveats
  obtain ⟨limits, -, hlimits⟩ := hcaveats
  rw [foldlM_cons, macaroonParseFirstPartyCaveat, labelled_of_ne (by decide)] at hlimits
  simp only at hlimits
  rw [labelled_append] at hlimits
  simp only at hlimits
  rw [macaroonParseBeforeCaveat, parseIso8601_late (Int.not_le.mp hyear)] at hlimits
  cases hlimits


/-! ## A macaroon at its limits -/

/-- A library with a hash that says nothing. -/
def blankEnv : MacaroonEnv where
  hmac _ _ := replicate 32 0
  hmac_length key message := by simp
  aesDecrypt _ _ _ := none
  evpDecode := Base64.decode
  now := some 1750000000

/-- The longest text that an identifier or a location may be. -/
def longText : Bytes := replicate 255 97

/-- A path of the longest length. -/
def longPath : Bytes := slash :: replicate 254 97

theorem issuePackets_long : (issuePackets blankEnv (ascii "k") longText longText
    (activitiesText [ascii "LIST"]) longPath 4102444800).isSome = true := by
  decide +kernel

/-- **The text of long fields** is cut short in the buffer that the issuer asks for, and is
refused. -/
theorem issued_long_refused :
    ¬∀ (env : MacaroonEnv) (rootKey location identifier text : Bytes)
      (acts : List Bytes) (path : Bytes) (expiry : ℤ) (now outSize : ℕ),
      DecodesBase64 env.evpDecode → env.now = some now → now < expiry →
      identifier.length < 256 → macaroonTextValueValid identifier = true →
      location.length < 256 → (location = [] ∨ macaroonTextValueValid location = true) →
      tokenScopePathIsCanonical path = true → path.length < scopePathMax →
      (∀ a ∈ acts, (macaroonPermissionForActivity a).isSome = true) →
      macaroonIssue env rootKey location identifier (activitiesText acts) path expiry outSize =
        some text →
      ValidatesAs env rootKey text location identifier acts path expiry := by
  intro h
  have hdec : DecodesBase64 blankEnv.evpDecode := Base64.decode_encode
  obtain ⟨bin, hbin⟩ := Option.isSome_iff_exists.mp issuePackets_long
  have hissue : macaroonIssue blankEnv (ascii "k") longText longText
      (activitiesText [ascii "LIST"]) longPath 4102444800 1024 = some (b64urlEncode bin 1024) := by
    rw [macaroonIssue, if_neg (by decide), if_neg (by decide), hbin]
    rfl
  obtain ⟨claims, hclaims, -⟩ := h blankEnv (ascii "k") longText longText _ [ascii "LIST"] longPath
    4102444800 1750000000 1024 hdec rfl (by decide) (by decide +kernel) (by decide +kernel)
    (by decide +kernel) (.inr (by decide +kernel)) (by decide +kernel) (by decide +kernel)
    (by decide) hissue
  have hlong : longText.length < 256 := by decide +kernel
  obtain ⟨hmax, hlens⟩ := issuePackets_bounds (by decide +kernel) hbin
  have hl := isPacket_issued blankEnv (ascii "k") hlong hlong hlens
  obtain ⟨n, hn, htext, hfits⟩ := b64urlEncode_spec bin 1024
  rw [htext] at hclaims
  rw [issueBinMax] at hmax
  have hdecode : b64urlDecode blankEnv.evpDecode (b64url (bin.take n)) b64DecodeMax =
      some (bin.take n) :=
    b64urlDecode_b64url hdec (by rw [length_take]; omega)
  obtain ⟨rfl, hyear⟩ := whole_of_validates hl (issuePackets_some hbin) (by decide) hn hdecode
    hclaims
  have hknown : ∀ a ∈ [ascii "LIST"], (macaroonPermissionForActivity a).isSome = true := by
    decide
  have hsize := length_issued blankEnv (ascii "k") longText longText hknown
    (by decide +kernel : longPath ≠ []) (by decide) hyear
  rw [← issuePackets_some hbin] at hsize
  have hfit := hfits.mp rfl
  have hvalue : issuedSize longText longText [ascii "LIST"] longPath = 913 := by
    decide +kernel
  rw [hsize, hvalue, B64Fits] at hfit
  omega

/-! ## Issuing and validating -/

/-- **An issued macaroon validates** as what it was issued for just where its text fits its
buffer and the year of its expiry has four digits. -/
theorem issued_validates_iff {now : ℕ} {text : Bytes} {outSize : ℕ}
    (hdec : DecodesBase64 env.evpDecode) (hnow : env.now = some now) (hexpiry : now < expiry)
    (hid : identifier.length < 256) (hidentifier : macaroonTextValueValid identifier = true)
    (hloc : location.length < 256)
    (hlocation : location = [] ∨ macaroonTextValueValid location = true)
    (hpath : tokenScopePathIsCanonical path = true) (hshort : path.length < scopePathMax)
    (hknown : ∀ a ∈ acts, (macaroonPermissionForActivity a).isSome = true)
    (hissue : macaroonIssue env rootKey location identifier (activitiesText acts) path expiry
      outSize = some text) :
    ValidatesAs env rootKey text location identifier acts path expiry ↔
      (gmtime expiry).year ≤ 9999 ∧
        B64Fits (issuedSize location identifier acts path) outSize := by
  have hexpiry₀ : 0 < expiry := by omega
  have hne : path ≠ [] := (proper_of_canonical hpath).1
  rw [macaroonIssue] at hissue
  split at hissue
  · cases hissue
  next hinput =>
  split at hissue
  · cases hissue
  obtain ⟨bin, hbin, rfl⟩ := Option.map_eq_some_iff.mp hissue
  obtain ⟨hmax, hlens⟩ := issuePackets_bounds hshort hbin
  have hbin_eq := issuePackets_some hbin
  have hl := isPacket_issued env rootKey hloc hid hlens
  obtain ⟨n, hn, htext, hfits⟩ := b64urlEncode_spec bin outSize
  rw [htext]
  have hdecode : b64urlDecode env.evpDecode (b64url (bin.take n)) b64DecodeMax =
      some (bin.take n) := by
    refine b64urlDecode_b64url hdec ?_
    rw [length_take]
    rw [issueBinMax] at hmax
    omega
  have hrootKey : rootKey ≠ [] := fun h => hinput (.inr h)
  constructor
  · rintro ⟨claims, hclaims, -⟩
    obtain ⟨rfl, hyear⟩ := whole_of_validates hl hbin_eq hexpiry₀ hn hdecode hclaims
    have hsize := length_issued env rootKey location identifier hknown hne hexpiry₀ hyear
    rw [← hbin_eq] at hsize
    exact ⟨hyear, hsize ▸ hfits.mp rfl⟩
  · rintro ⟨hyear, hfit⟩
    have hsize := length_issued env rootKey location identifier hknown hne hexpiry₀ hyear
    rw [← hbin_eq] at hsize
    rw [← hsize] at hfit
    rw [hfits.mpr hfit, take_length] at hdecode ⊢
    exact issued_validates hnow hexpiry hrootKey hid hidentifier hloc hlocation hpath hshort
      hknown hlens hbin_eq hdecode hyear


/-- A macaroon for `u` to list what is below `/d`. -/
def listText : Bytes :=
  (macaroonIssue blankEnv (ascii "k") (ascii "se") (ascii "u") (activitiesText [ascii "LIST"])
    (ascii "/d") 4102444800 1024).getD []

theorem issued_validates_iff_sample :
    ValidatesAs blankEnv (ascii "k") listText (ascii "se") (ascii "u") [ascii "LIST"]
      (ascii "/d") 4102444800 ↔
    (gmtime 4102444800).year ≤ 9999 ∧
      B64Fits (issuedSize (ascii "se") (ascii "u") [ascii "LIST"] (ascii "/d")) 1024 :=
  issued_validates_iff Base64.decode_encode (rfl : blankEnv.now = some 1750000000) (by decide) (by decide)
    (by decide) (by decide) (.inr (by decide)) (by decide) (by decide) (by decide)
    (by decide +kernel)

end BrixCache
