import BrixCache.S3.SigV4Text

/-!
# What a SigV4 signature binds

Two requests checked under one secret. As long as the canonical request of the first fits its
buffers, another request with the same signature agrees with it in everything that is signed. Where
the URI or a header line is cut, there is another request it does not tell apart.
-/

namespace BrixCache

open Delimited List

/-! ## Components -/

section Components

variable {r : S3Request} {comp : SigV4Components} {value text name pairs : Bytes} {size : ℕ}

theorem sigv4CopyComponent_some (h : sigv4CopyComponent value size = some text) :
    text = value ∧ text.length < size := by
  simp only [sigv4CopyComponent, Option.ite_none_left_eq_some, not_or, Nat.not_le,
    Option.some.injEq] at h
  obtain ⟨⟨-, hlen⟩, rfl⟩ := h
  exact ⟨rfl, hlen⟩

theorem sigv4FindAuthPair_subset {boundary : Bool}
    (h : sigv4FindAuthPair name boundary pairs = some text) : ∀ b ∈ text, b ∈ pairs := by
  induction pairs generalizing boundary with
  | nil => simp [sigv4FindAuthPair] at h
  | cons b bs ih =>
    rw [sigv4FindAuthPair] at h
    split at h
    · cases h
    · split at h
      · cases h
        exact fun b hb => mem_of_mem_drop hb
      · exact fun b hb => mem_cons_of_mem _ (ih h b hb)

theorem sigv4ExtractAuthValue_some (h : sigv4ExtractAuthValue pairs name size = some text) :
    (∀ b ∈ text, b ∈ pairs) ∧ 0 ∉ text ∧ text.length < size := by
  simp only [sigv4ExtractAuthValue, Option.bind_eq_bind, Option.bind_eq_some_iff] at h
  obtain ⟨rest, hfind, hcopy⟩ := h
  obtain ⟨rfl, hlen⟩ := sigv4CopyComponent_some hcopy
  refine ⟨fun b hb => sigv4FindAuthPair_subset hfind b (takeWhile_subset _ hb), fun h0 => ?_,
    hlen⟩
  have hall := all_eq_true.mp all_takeWhile 0 h0
  simp at hall

theorem sigv4ParseCredentialScope_some {akid date region : Bytes}
    (h : sigv4ParseCredentialScope text = some (akid, date, region)) :
    date.length < 16 ∧ region.length < 64 := by
  simp only [sigv4ParseCredentialScope, Option.bind_eq_bind, Option.bind_eq_some_iff,
    Option.pure_def, Option.some.injEq, Prod.mk.injEq] at h
  obtain ⟨_, -, _, -, _, -, _, -, _, hdate, _, hregion, rfl, rfl, rfl⟩ := h
  exact ⟨(sigv4CopyComponent_some hdate).2, (sigv4CopyComponent_some hregion).2⟩

theorem s3GetQueryParam_some (h : r.s3GetQueryParam name size = some text) :
    ∃ p, r.query.filter (fun p => p.name = name) = [p] ∧ text = p.value.takeWhile (· ≠ 0) ∧
      p.value.length < size := by
  rw [S3Request.s3GetQueryParam] at h
  split at h
  · next p hfind =>
    simp only [Option.ite_none_left_eq_some, not_or, Nat.not_le, Option.some.injEq] at h
    obtain ⟨⟨-, -, hlen⟩, rfl⟩ := h
    rw [S3Request.queryFindSingleton] at hfind
    split at hfind
    · cases hfind
    · next heq =>
      cases hfind
      exact ⟨p, heq, rfl, hlen⟩
    · cases hfind
  · cases h

/-- Components as the two readers give them -/
structure SigV4Components.Read (r : S3Request) (comp : SigV4Components) : Prop where
  date : comp.date.length < 16
  region : comp.region.length < 64
  signedHdrs : comp.signedHdrs.length < s3SignedHeadersBufSize
  text : 0 ∉ comp.signedHdrs
  /-- from a header no line feed gets in -/
  header : comp.presigned = false → 10 ∉ comp.signedHdrs
  /-- in a presigned request the list is one of the parameters -/
  query : comp.presigned = true →
    r.s3GetQueryParam (ascii "X-Amz-SignedHeaders") s3SignedHeadersBufSize = some comp.signedHdrs

theorem parseAuthorization_read (h : parseAuthorization (r.getHeader name) = some comp) :
    comp.Read r := by
  simp only [parseAuthorization, Option.ite_none_left_eq_some, Option.bind_eq_bind,
    Option.bind_eq_some_iff, Option.pure_def, Option.some.injEq] at h
  obtain ⟨-, signedHdrs, hsigned, _, -, credential, -, ⟨akid, date, region⟩, hscope, rfl⟩ := h
  obtain ⟨hsub, hnul, hlen⟩ := sigv4ExtractAuthValue_some hsigned
  obtain ⟨hdate, hregion⟩ := sigv4ParseCredentialScope_some hscope
  exact
    { date := hdate
      region := hregion
      signedHdrs := hlen
      text := hnul
      header := fun _ hlf => (r.getHeader_text name).1 (mem_of_mem_drop (hsub 10 hlf))
      query := nofun }

theorem parsePresignedAuthorization_read
    (h : parsePresignedAuthorization r = .ok (some comp)) : comp.Read r := by
  rw [parsePresignedAuthorization] at h
  split at h
  · cases h
  · split at h
    · cases h
    · next hparse =>
      cases h
      simp only [Option.bind_eq_bind, Option.bind_eq_some_iff, Option.pure_def,
        Option.some.injEq] at hparse
      obtain ⟨_, -, _, -, _, -, credential, -, _, -, _, -, signedHdrs, hsigned,
        ⟨akid, date, region⟩, hscope, _, -, rfl⟩ := hparse
      obtain ⟨p, -, htext, hlen⟩ := s3GetQueryParam_some hsigned
      obtain ⟨hdate, hregion⟩ := sigv4ParseCredentialScope_some hscope
      have hcut : signedHdrs.length ≤ p.value.length :=
        htext ▸ (List.takeWhile_prefix _).length_le
      exact
        { date := hdate
          region := hregion
          signedHdrs := Nat.lt_of_le_of_lt hcut hlen
          text := by
            intro h0
            have hall := all_eq_true.mp all_takeWhile 0 (htext ▸ h0)
            simp at hall
          header := nofun
          query := fun _ => hsigned }

theorem s3Sigv4ParseAuthzHeader_read (h : s3Sigv4ParseAuthzHeader r = .ok comp) : comp.Read r := by
  simp only [s3Sigv4ParseAuthzHeader] at h
  split at h
  · cases h
  · next hparse =>
    cases h
    exact parsePresignedAuthorization_read hparse
  · split at h
    · cases h
    · split at h
      · cases h
      · next hparse =>
        cases h
        exact parseAuthorization_read hparse

theorem s3ParseAmzDatetime_length {t : ℤ} (h : s3ParseAmzDatetime text = some t) :
    text.length = 16 := by
  simp only [s3ParseAmzDatetime, Option.bind_eq_bind, Option.bind_eq_some_iff,
    Option.guard_eq_some'] at h
  obtain ⟨_, ⟨hlen, -⟩, -⟩ := h
  exact hlen

theorem s3Sigv4ResolveRequestTime_length {now : ℤ}
    (h : s3Sigv4ResolveRequestTime now r comp = .ok text) : text.length = 16 := by
  simp only [s3Sigv4ResolveRequestTime] at h
  repeat' split at h
  all_goals cases h
  all_goals exact s3ParseAmzDatetime_length ‹_›

end Components

/-! ## Checks -/

/-- A request for which the server computes a signature -/
structure SigV4Check (hash : SigV4Hash) (secret : Bytes) : Type where
  request : S3Request
  now : ℤ
  stack : SigV4Stack
  cache : SigningKeyCache
  comp : SigV4Components
  amzDate : Bytes
  out : SigV4SigOut
  parsed : s3Sigv4ParseAuthzHeader request = .ok comp
  resolved : s3Sigv4ResolveRequestTime now request comp = .ok amzDate
  computed : s3Sigv4ComputeSignature hash secret request comp amzDate stack cache = .ok out

namespace SigV4Check

variable {hash : SigV4Hash} {secret : Bytes} (a b : SigV4Check hash secret)

/-- The names in `SignedHeaders` -/
def names : List Bytes := Words.words 59 a.comp.signedHdrs

/-- The names whose lines are in the canonical request -/
def printedNames : List Bytes := a.request.printedTokens 0 a.names

/-- The canonical request the server rebuilds. -/
def canonical : Bytes :=
  canonicalRequest a.request.methodName (urlencoded [slash] a.request.uri)
    ((buildCanonicalParsedQs a.request.query a.comp.presigned).getD [])
    (a.request.buildCanonicalHeaders a.comp.signedHdrs) a.comp.signedHdrs

/-- Neither hash takes the texts of the two checks to one digest, unless they are one text. -/
structure NoCollision : Prop where
  sha256 : hash.sha256 a.out.hashed = hash.sha256 b.out.hashed → a.out.hashed = b.out.hashed
  hmac : hash.hmac a.out.k4 a.out.signed = hash.hmac b.out.k4 b.out.signed →
    a.out.signed = b.out.signed

/-- Two requests with the same signed parts -/
structure SameSigned : Prop where
  methodName : a.request.methodName = b.request.methodName
  uri : a.request.uri = b.request.uri
  query : (signedQuery a.request.query a.comp.presigned).Perm
    (signedQuery b.request.query b.comp.presigned)
  signedHdrs : a.comp.signedHdrs = b.comp.signedHdrs
  values : ∀ tok ∈ a.names,
    trimBlanks (a.request.signedValue tok) = trimBlanks (b.request.signedValue tok)

/-- The signature of the request is the one of no request with other signed parts. -/
def Binds : Prop :=
  ∀ b : SigV4Check hash secret, a.NoCollision b → a.out.computedHex = b.out.computedHex →
    a.SameSigned b

/-- The URI fits its buffer, with room for one more byte and its escape. -/
def UriFits : Prop := (urlencoded [slash] a.request.uri).length + 3 < s3MaxKey

/-- The buffers of the canonical request hold all that is signed. -/
structure FitsBuffers : Prop where
  uri : a.UriFits
  headers : ∀ tok ∈ a.names, ∃ tok' ∈ a.printedNames, sameHeaderName tok tok'
  whole : a.canonical.length < s3Sigv4CanonicalMax

variable {a b}

theorem read : a.comp.Read a.request := s3Sigv4ParseAuthzHeader_read a.parsed

/-- What is hashed, signed and compared, in terms of the request -/
theorem out_eq :
    ∃ params, params.Perm (signedQuery a.request.query a.comp.presigned) ∧
      buildCanonicalParsedQs a.request.query a.comp.presigned = some (queryText params) ∧
      (queryText params).length < s3CanonicalQueryBufSize ∧
      a.out.hashed = printedBytes s3Sigv4CanonicalMax a.stack.behindCanonical
        (canonicalRequest a.request.methodName (canonicalUri a.request.uri a.stack)
          (queryText params) (a.request.buildCanonicalHeaders a.comp.signedHdrs)
          a.comp.signedHdrs) ∧
      a.out.signed = stringToSign a.amzDate a.comp.date a.comp.region
        (brixHexEncode (hash.sha256 a.out.hashed)) ∧
      a.out.computedHex = brixHexEncode (hash.hmac a.out.k4 a.out.signed) := by
  have hread := a.read
  have hamz := s3Sigv4ResolveRequestTime_length a.resolved
  have hcomputed := a.computed
  rw [s3Sigv4ComputeSignature] at hcomputed
  split at hcomputed
  · cases hcomputed
  · next qs hqs =>
    obtain ⟨params, hperm, rfl, hlen⟩ := buildCanonicalParsedQs_some hqs
    simp only at hcomputed
    split at hcomputed
    · cases hcomputed
    · -- the string to sign always fits its buffer
      have hroom : (stringToSign a.amzDate a.comp.date a.comp.region
          (brixHexEncode (hash.sha256 a.out.hashed))).length < s3Sigv4StringToSignMax := by
        have hdate := hread.date
        have hregion := hread.region
        simp only [stringToSign, length_append, length_cons, hamz, brixHexEncode_length,
          hash.sha256_length]
        have hhead : (ascii "AWS4-HMAC-SHA256").length = 16 := rfl
        have htail : (ascii "/s3/aws4_request").length = 16 := rfl
        rw [hhead, htail, s3Sigv4StringToSignMax]
        omega
      have hsigned := @printedBytes_of_lt _ a.stack.behindToSign _ hroom
      have hout := (Except.ok.inj hcomputed).symm
      refine ⟨params, hperm, hqs, hlen, by rw [hout], ?_, by rw [hout]⟩
      rw [← hsigned, hout]

theorem hashed_eq (hcoll : a.NoCollision b) (h : a.out.computedHex = b.out.computedHex) :
    a.out.hashed = b.out.hashed := by
  obtain ⟨-, -, -, -, -, hsa, hca⟩ := a.out_eq
  obtain ⟨-, -, -, -, -, hsb, hcb⟩ := b.out_eq
  rw [hca, hcb] at h
  have hsigned := hcoll.hmac (brixHexEncode_inj h)
  rw [hsa, hsb] at hsigned
  -- the digests stand at the ends
  simp only [stringToSign, ← append_assoc, ← cons_append] at hsigned
  have hdigest := (append_inj' hsigned (by simp [brixHexEncode_length, hash.sha256_length])).2
  exact hcoll.sha256 (brixHexEncode_inj (cons.inj hdigest).2)

/-! ## A request that fits -/

theorem urlencoded_text {safeExtra src : Bytes} (hlf : 10 ∉ safeExtra) (hnul : 0 ∉ safeExtra) :
    10 ∉ urlencoded safeExtra src ∧ 0 ∉ urlencoded safeExtra src :=
  ⟨not_mem_urlencoded hlf (by decide) (by decide), not_mem_urlencoded hnul (by decide) (by decide)⟩

theorem canonicalUri_of_uriFits (h : a.UriFits) :
    canonicalUri a.request.uri a.stack = urlencoded [slash] a.request.uri := by
  rw [canonicalUri, brixHttpUrlencode_of_lt (Nat.lt_of_le_of_lt (Nat.le_add_right _ 3) h)]

/-- Whatever its length, the URI in the buffer has no line feed in it before the place where a URI
that fits has ended. -/
theorem uri_eq (ha : a.UriFits) {rest rest' : Bytes}
    (h : urlencoded [slash] a.request.uri ++ 10 :: rest =
      canonicalUri b.request.uri b.stack ++ 10 :: rest') :
    a.request.uri = b.request.uri ∧ rest = rest' := by
  have htext (src : Bytes) : 10 ∉ urlencoded [slash] src :=
    (urlencoded_text (by decide) (by decide)).1
  by_cases hb : (urlencoded [slash] b.request.uri).length < s3MaxKey
  · rw [canonicalUri, brixHttpUrlencode_of_lt hb] at h
    obtain ⟨huri, hrest⟩ := eq_of_first (htext _) (htext _) h
    exact ⟨urlencoded_inj (by decide) huri, hrest⟩
  · exfalso
    obtain ⟨p, hp, hlen, hmore⟩ := brixHttpUrlencode_of_le (by decide) (Nat.not_lt.mp hb)
    have hcut := hmore []
    rw [append_nil] at hcut
    rw [canonicalUri, hcut] at h
    simp only [append_assoc] at h
    exact not_eq_of_length (fun hlf => htext _ (hp.subset hlf))
      (by unfold UriFits at ha; omega) h

theorem eq_of_ngxTolower {b c : UInt8} (hb : b < 97) (h : ngxTolower c = b) : c = b := by
  rw [ngxTolower] at h
  split at h
  · next hupper =>
    obtain ⟨hlo, hhi⟩ := hupper
    rw [UInt8.le_iff_toNat_le] at hlo hhi
    rw [UInt8.lt_iff_toNat_lt] at hb
    have hsum := congrArg UInt8.toNat h
    rw [UInt8.toNat_add] at hsum
    simp at hlo hhi hsum hb
    omega
  · exact h

theorem zero_not_mem_headers : 0 ∉ a.request.buildCanonicalHeaders a.comp.signedHdrs := by
  rw [S3Request.buildCanonicalHeaders, S3Request.canonicalHeadersFrom_eq, nil_append]
  intro h
  obtain ⟨tok, htok, h0⟩ := mem_flatMap.mp h
  have hname : 0 ∉ tok := fun h0 =>
    a.read.text (Words.mem_of_mem_words ((S3Request.printedTokens_begins _ _ _).subset htok) h0)
  have hvalue := (a.request.not_mem_trimmed tok).2
  simp only [S3Request.headerLine, mem_append, mem_map, mem_cons,
    not_mem_nil, or_false] at h0
  obtain (⟨c, hc, hc0⟩ | h58 | h0) | h10 := h0
  · exact hname (eq_of_ngxTolower (by decide) hc0 ▸ hc)
  · exact absurd h58 (by decide)
  · exact hvalue h0
  · exact absurd h10 (by decide)

theorem canonical_eq (h : a.UriFits) {params : List (Bytes × Bytes)}
    (hqs : buildCanonicalParsedQs a.request.query a.comp.presigned = some (queryText params)) :
    canonicalRequest a.request.methodName (canonicalUri a.request.uri a.stack)
      (queryText params) (a.request.buildCanonicalHeaders a.comp.signedHdrs) a.comp.signedHdrs =
        a.canonical := by
  rw [canonical, canonicalUri_of_uriFits h, hqs, Option.getD_some]

theorem zero_not_mem_canonical {params : List (Bytes × Bytes)}
    (hqs : buildCanonicalParsedQs a.request.query a.comp.presigned = some (queryText params)) :
    0 ∉ a.canonical := by
  have huri : 0 ∉ urlencoded [slash] a.request.uri := (urlencoded_text (by decide) (by decide)).2
  have hquery : 0 ∉ queryText params :=
    not_mem_queryText (by decide) (by decide) (by decide) (by decide)
  have htail : 0 ∉ ascii "UNSIGNED-PAYLOAD" := by decide
  rw [canonical, hqs, Option.getD_some, canonicalRequest]
  simp [a.request.methodText.2, huri, hquery, zero_not_mem_headers, a.read.text, htail]

theorem hashed_of_fits (h : a.FitsBuffers) : a.out.hashed = a.canonical := by
  obtain ⟨params, -, hqs, -, hhashed, -, -⟩ := a.out_eq
  rw [canonical_eq h.uri hqs] at hhashed
  rw [hhashed, printedBytes_of_lt h.whole]

theorem filter_signedQuery {query : List QueryParam} {skip : Bool} {name : Bytes}
    (hname : name ≠ ascii "X-Amz-Signature") :
    (signedQuery query skip).filter (fun p => p.1 = name) =
      (query.filter fun p => p.name = name).map fun p => (p.name, p.value) := by
  rw [signedQuery, filter_map, filter_filter]
  congr 1
  apply filter_congr
  rintro p -
  by_cases h : p.name = name
  · simp [h, hname]
  · simp [h]

theorem printedLines_text (h : a.comp.presigned = false) :
    ∀ x ∈ a.request.printedLines (a.request.printedTokens 0 (Words.words 59 a.comp.signedHdrs)),
      10 ∉ x ∧ x ≠ [] := by
  intro x hx
  obtain ⟨tok, htok, rfl⟩ := mem_map.mp hx
  refine ⟨fun hlf => ?_, by simp⟩
  have hname : 10 ∉ tok := fun hlf => a.read.header h
    (Words.mem_of_mem_words ((S3Request.printedTokens_begins _ _ _).subset htok) hlf)
  simp only [mem_append, mem_map, mem_cons] at hlf
  obtain ⟨c, hc, hc10⟩ | h58 | hvalue := hlf
  · exact hname (eq_of_ngxTolower (by decide) hc10 ▸ hc)
  · exact absurd h58 (by decide)
  · exact (a.request.not_mem_trimmed tok).1 hvalue

theorem buildCanonicalHeaders_eq (r : S3Request) (signedHdrs : Bytes) :
    r.buildCanonicalHeaders signedHdrs =
      unlines 10 (r.printedLines (r.printedTokens 0 (Words.words 59 signedHdrs))) := by
  rw [S3Request.buildCanonicalHeaders, S3Request.canonicalHeadersFrom_eq,
    S3Request.flatMap_headerLine]
  rfl

/-- The list of names behind the header lines of two requests is the same. Two presigned requests
have it among their parameters, and one from a header has no line feed in it. -/
theorem signedHdrs_eq
    (hquery : (signedQuery a.request.query a.comp.presigned).Perm
      (signedQuery b.request.query b.comp.presigned))
    (h : a.request.buildCanonicalHeaders a.comp.signedHdrs ++ 10 :: a.comp.signedHdrs =
      b.request.buildCanonicalHeaders b.comp.signedHdrs ++ 10 :: b.comp.signedHdrs) :
    a.comp.signedHdrs = b.comp.signedHdrs := by
  rw [buildCanonicalHeaders_eq, buildCanonicalHeaders_eq] at h
  cases ha : a.comp.presigned with
  | false => exact (eq_of_unlines (printedLines_text ha) (a.read.header ha) h.symm).symm
  | true =>
    cases hb : b.comp.presigned with
    | false => exact eq_of_unlines (printedLines_text hb) (b.read.header hb) h
    | true =>
      have hname : ascii "X-Amz-SignedHeaders" ≠ ascii "X-Amz-Signature" := by decide
      obtain ⟨p, hp, htext, -⟩ := s3GetQueryParam_some (a.read.query ha)
      obtain ⟨q, hq, htext', -⟩ := s3GetQueryParam_some (b.read.query hb)
      have hboth := hquery.filter fun p => p.1 = ascii "X-Amz-SignedHeaders"
      rw [filter_signedQuery hname, filter_signedQuery hname, hp, hq] at hboth
      have hpair : (p.name, p.value) = (q.name, q.value) := by simpa using hboth
      rw [htext, htext', (Prod.mk.inj hpair).2]

/-- Where nothing is cut, the signature binds. -/
theorem binds_of_fits (ha : a.FitsBuffers) : a.Binds := by
  intro b hcoll hsig
  have hhashed := hashed_eq hcoll hsig
  obtain ⟨params, hperm, hqs, -, -, -, -⟩ := a.out_eq
  obtain ⟨params', hperm', hqs', -, hhashed', -, -⟩ := b.out_eq
  rw [hashed_of_fits ha, hhashed'] at hhashed
  -- the text of `b` has not been cut, since no NUL is in the one of `a`
  have hwhole : (canonicalRequest b.request.methodName (canonicalUri b.request.uri b.stack)
      (queryText params') (b.request.buildCanonicalHeaders b.comp.signedHdrs)
      b.comp.signedHdrs).length < s3Sigv4CanonicalMax := by
    by_contra hlen
    exact zero_not_mem_canonical hqs (hhashed ▸ zero_mem_printedBytes (Nat.not_lt.mp hlen))
  rw [printedBytes_of_lt hwhole, canonical, hqs, Option.getD_some, canonicalRequest,
    canonicalRequest] at hhashed
  obtain ⟨hmethod, hrest⟩ := eq_of_first a.request.methodText.1 b.request.methodText.1 hhashed
  obtain ⟨huri, hrest⟩ := uri_eq ha.uri hrest
  have hquerytext (params) : 10 ∉ queryText params :=
    not_mem_queryText (by decide) (by decide) (by decide) (by decide)
  obtain ⟨hqueries, hrest⟩ := eq_of_first (hquerytext _) (hquerytext _) hrest
  have hquery := hperm.symm.trans ((queryText_inj hqueries) ▸ hperm')
  -- what is left are the header lines, an empty line, the names and a constant
  rw [← cons_append, ← cons_append, ← append_assoc, ← append_assoc] at hrest
  have hhdrs := append_cancel_right hrest
  have hnames := signedHdrs_eq hquery hhdrs
  rw [hnames] at hhdrs
  have hlines := append_cancel_right hhdrs
  rw [S3Request.buildCanonicalHeaders, S3Request.buildCanonicalHeaders,
    S3Request.canonicalHeadersFrom_eq, S3Request.canonicalHeadersFrom_eq, nil_append,
    nil_append] at hlines
  obtain ⟨-, hvalues⟩ := S3Request.eq_of_lines (S3Request.printedTokens_begins _ _ _)
    (S3Request.printedTokens_begins _ _ _) hlines
  refine ⟨hmethod, huri, hquery, hnames, fun tok htok => ?_⟩
  obtain ⟨tok', hprinted, hsame⟩ := ha.headers tok htok
  rw [printedNames, names, hnames] at hprinted
  have hvalue := hvalues tok' hprinted
  rwa [S3Request.signedValue_eq, S3Request.signedValue_eq, ← S3Request.getHeader_congr hsame,
    ← S3Request.getHeader_congr hsame, ← S3Request.signedValue_eq, ← S3Request.signedValue_eq]
      at hvalue

end SigV4Check

/-! ## A request that does not fit -/

namespace S3Request

variable (r : S3Request) (tok value : Bytes) (hvalue : 10 ∉ value ∧ 0 ∉ value)

def withUri (uri : Bytes) : S3Request := { r with uri := uri }

/-- The request with the value in the place of what it has under the name -/
def withHeader : S3Request :=
  { r with
    headers := (tok, value) :: r.headers.filter fun h => !sameHeaderName h.1 tok
    headerText := by
      intro h hh
      obtain rfl | hh := mem_cons.mp hh
      · exact hvalue
      · exact r.headerText h (mem_filter.mp hh).1 }

variable {r tok value hvalue} {name : Bytes} {toks : List Bytes} {out : Bytes}

theorem getHeader_withHeader_same (h : sameHeaderName name tok) :
    (r.withHeader tok value hvalue).getHeader name = value := by
  rw [getHeader_congr h, getHeader, withHeader]
  simp [sameHeaderName]

theorem getHeader_withHeader_of_ne (h : ¬sameHeaderName name tok) :
    (r.withHeader tok value hvalue).getHeader name = r.getHeader name := by
  rw [sameHeaderName_iff] at h
  have hfirst : sameHeaderName tok name = false := by simpa [sameHeaderName] using Ne.symm h
  have hfind : (fun x : Bytes × Bytes => decide ((!sameHeaderName x.1 tok) = true ∧
      sameHeaderName x.1 name = true)) = fun x => sameHeaderName x.1 name := by
    funext x
    by_cases hx : x.1.map ngxTolower = name.map ngxTolower
    · simp [sameHeaderName, hx, h]
    · simp [sameHeaderName, hx]
  rw [getHeader, withHeader, find?_cons_of_neg (by simp [hfirst]), find?_filter,
    hfind, getHeader]

theorem canonicalHeadersFrom_withHeader (hlong : (r.getHeader tok).length ≤ value.length)
    (h : ∀ name ∈ r.printedTokens out.length toks, ¬sameHeaderName name tok) :
    (r.withHeader tok value hvalue).canonicalHeadersFrom out toks =
      r.canonicalHeadersFrom out toks := by
  induction toks generalizing out with
  | nil => rfl
  | cons name toks ih =>
    rw [printedTokens] at h
    rw [canonicalHeadersFrom, canonicalHeadersFrom]
    split at h
    · next hcut =>
      have hle : (r.signedValue name).length ≤
          ((r.withHeader tok value hvalue).signedValue name).length := by
        rw [signedValue_eq, signedValue_eq]
        by_cases hsame : sameHeaderName name tok
        · rw [getHeader_withHeader_same hsame, getHeader_congr hsame]
          exact hlong
        · rw [getHeader_withHeader_of_ne hsame]
      rw [if_pos (by omega), if_pos hcut]
    · next hroom =>
      obtain ⟨hname, hrest⟩ := forall_mem_cons.mp h
      have hline : (r.withHeader tok value hvalue).headerLine name = r.headerLine name := by
        simp [headerLine, getHeader_withHeader_of_ne hname]
      rw [if_neg (by simpa [getHeader_withHeader_of_ne hname] using hroom), if_neg hroom, hline]
      exact ih (by simpa using hrest)

theorem canonicalHeadersFrom_congr {r' : S3Request} (h : r.headers = r'.headers) :
    r.canonicalHeadersFrom out toks = r'.canonicalHeadersFrom out toks := by
  have hvalue (name) : r.signedValue name = r'.signedValue name := by
    rw [signedValue_eq, signedValue_eq, getHeader, getHeader, h]
  induction toks generalizing out with
  | nil => rfl
  | cons name toks ih => simp only [canonicalHeadersFrom, headerLine, hvalue, ih]

end S3Request

theorem s3Sigv4ComputeSignature_congr {hash : SigV4Hash} {secret amzDate : Bytes}
    {comp : SigV4Components} {r r' : S3Request} {stack stack' : SigV4Stack}
    {cache : SigningKeyCache} (hmethod : r.methodName = r'.methodName)
    (huri : canonicalUri r.uri stack = canonicalUri r'.uri stack') (hquery : r.query = r'.query)
    (hhdrs : r.buildCanonicalHeaders comp.signedHdrs = r'.buildCanonicalHeaders comp.signedHdrs)
    (hcanonical : stack.behindCanonical = stack'.behindCanonical)
    (hsign : stack.behindToSign = stack'.behindToSign) :
    s3Sigv4ComputeSignature hash secret r comp amzDate stack cache =
      s3Sigv4ComputeSignature hash secret r' comp amzDate stack' cache := by
  simp only [s3Sigv4ComputeSignature, hmethod, huri, hquery, hhdrs, hcanonical, hsign]

section

variable {r : S3Request} {uri : Bytes}

theorem s3Sigv4ParseAuthzHeader_withUri :
    s3Sigv4ParseAuthzHeader (r.withUri uri) = s3Sigv4ParseAuthzHeader r := by
  have hquery (key : Bytes) (outsz : ℕ) :
      (r.withUri uri).s3GetQueryParam key outsz = r.s3GetQueryParam key outsz := rfl
  have hfind (key : Bytes) :
      (r.withUri uri).queryFindSingleton key = r.queryFindSingleton key := rfl
  have hheader (name : Bytes) : (r.withUri uri).getHeader name = r.getHeader name := rfl
  simp only [s3Sigv4ParseAuthzHeader, parsePresignedAuthorization, hquery, hfind, hheader]

theorem s3Sigv4ResolveRequestTime_withUri {now : ℤ} {comp : SigV4Components} :
    s3Sigv4ResolveRequestTime now (r.withUri uri) comp = s3Sigv4ResolveRequestTime now r comp := by
  have hheader (name : Bytes) : (r.withUri uri).getHeader name = r.getHeader name := rfl
  simp only [s3Sigv4ResolveRequestTime, hheader]

end

theorem s3Sigv4ComputeSignature_ok {hash : SigV4Hash} {secret amzDate qs : Bytes}
    {comp : SigV4Components} {r : S3Request} {stack : SigV4Stack} {cache : SigningKeyCache}
    {key : Bytes × SigningKeyCache}
    (hqs : buildCanonicalParsedQs r.query comp.presigned = some qs)
    (hkey : s3Sigv4DeriveSigningKeyCached hash secret comp.date comp.region cache = some key) :
    ∃ out, s3Sigv4ComputeSignature hash secret r comp amzDate stack cache = .ok out := by
  rw [s3Sigv4ComputeSignature, hqs]
  simp only [hkey]
  exact ⟨_, rfl⟩

namespace SigV4Check

variable {hash : SigV4Hash} {secret : Bytes} (a : SigV4Check hash secret)

/-- The check of another request that gets to the same signature -/
def withRequest (r : S3Request) (stack : SigV4Stack)
    (hparsed : s3Sigv4ParseAuthzHeader r = .ok a.comp)
    (hresolved : s3Sigv4ResolveRequestTime a.now r a.comp = .ok a.amzDate)
    (hcomputed : s3Sigv4ComputeSignature hash secret r a.comp a.amzDate stack a.cache =
      s3Sigv4ComputeSignature hash secret a.request a.comp a.amzDate a.stack a.cache) :
    SigV4Check hash secret :=
  { a with request := r, stack, parsed := hparsed, resolved := hresolved,
           computed := hcomputed.trans a.computed }

variable {a}

theorem Binds.sameSigned (h : a.Binds) {r : S3Request} {stack : SigV4Stack}
    (hparsed : s3Sigv4ParseAuthzHeader r = .ok a.comp)
    (hresolved : s3Sigv4ResolveRequestTime a.now r a.comp = .ok a.amzDate)
    (hcomputed : s3Sigv4ComputeSignature hash secret r a.comp a.amzDate stack a.cache =
      s3Sigv4ComputeSignature hash secret a.request a.comp a.amzDate a.stack a.cache) :
    a.SameSigned (a.withRequest r stack hparsed hresolved hcomputed) :=
  h _ ⟨fun _ => rfl, fun _ => rfl⟩ rfl

theorem exists_stack_of_not_uriFits (h : ¬a.UriFits) :
    ∃ stack : SigV4Stack,
      canonicalUri (a.request.uri ++ [32]) stack = canonicalUri a.request.uri a.stack ∧
      stack.behindCanonical = a.stack.behindCanonical ∧
      stack.behindToSign = a.stack.behindToSign := by
  by_cases hfit : (urlencoded [slash] a.request.uri).length < s3MaxKey
  · -- the longer URI is cut behind the whole of the shorter one, where a NUL was left
    refine ⟨⟨[], not_mem_nil, a.stack.behindCanonical, a.stack.behindToSign⟩, ?_, rfl, rfl⟩
    have hloop := @urlencodeFrom_append [slash] a.request.uri [] s3MaxKey hfit [32]
    have hescape : (urlencodeByte [slash] 32).length = 3 := rfl
    rw [nil_append, urlencodeFrom, hescape, if_pos (Nat.not_lt.mp h)] at hloop
    rw [canonicalUri, canonicalUri, brixHttpUrlencode_of_lt hfit, brixHttpUrlencode, hloop]
    simp
  · obtain ⟨p, -, -, hcut⟩ := brixHttpUrlencode_of_le (by decide) (Nat.not_lt.mp hfit)
    have hshort := hcut []
    rw [append_nil] at hshort
    exact ⟨a.stack, by rw [canonicalUri, canonicalUri, hcut, hshort], rfl, rfl⟩

theorem Binds.uriFits (h : a.Binds) : a.UriFits := by
  by_contra hlong
  obtain ⟨stack, huri, hcanonical, hsign⟩ := exists_stack_of_not_uriFits hlong
  have hcomputed : s3Sigv4ComputeSignature hash secret
        (a.request.withUri (a.request.uri ++ [32])) a.comp a.amzDate stack a.cache =
      s3Sigv4ComputeSignature hash secret a.request a.comp a.amzDate a.stack a.cache :=
    s3Sigv4ComputeSignature_congr rfl huri rfl (S3Request.canonicalHeadersFrom_congr rfl)
      hcanonical hsign
  have hsame := h.sameSigned (s3Sigv4ParseAuthzHeader_withUri.trans a.parsed)
    (s3Sigv4ResolveRequestTime_withUri.trans a.resolved) hcomputed
  have hlen := congrArg length hsame.uri
  simp [withRequest, S3Request.withUri] at hlen

/-- The check does not read the header itself: it is none of the two it does read, or the request
is presigned, when it reads none. -/
def Unread (a : SigV4Check hash secret) (tok : Bytes) : Prop :=
  a.comp.presigned = true ∨
    ¬sameHeaderName (ascii "authorization") tok ∧ ¬sameHeaderName (ascii "x-amz-date") tok

section

variable {r : S3Request} {comp : SigV4Components} {tok value amzDate : Bytes} {now : ℤ}
  {hvalue : 10 ∉ value ∧ 0 ∉ value}

theorem s3Sigv4ParseAuthzHeader_withHeader (h : s3Sigv4ParseAuthzHeader r = .ok comp)
    (hread : comp.presigned = true ∨ ¬sameHeaderName (ascii "authorization") tok) :
    s3Sigv4ParseAuthzHeader (r.withHeader tok value hvalue) = .ok comp := by
  have hquery : parsePresignedAuthorization (r.withHeader tok value hvalue) =
      parsePresignedAuthorization r := rfl
  rw [s3Sigv4ParseAuthzHeader] at h ⊢
  rw [hquery]
  split at h
  · cases h
  · exact h
  · -- the components of a header are not presigned
    obtain hpresigned | hne := hread
    · simp only at h
      split at h
      · cases h
      · split at h
        · cases h
        · next hparse =>
          cases h
          simp only [parseAuthorization, Option.ite_none_left_eq_some, Option.bind_eq_bind,
            Option.bind_eq_some_iff, Option.pure_def, Option.some.injEq] at hparse
          obtain ⟨-, _, -, _, -, _, -, ⟨_, _, _⟩, -, rfl⟩ := hparse
          cases hpresigned
    · rw [S3Request.getHeader_withHeader_of_ne hne]
      exact h

theorem s3Sigv4ResolveRequestTime_withHeader
    (h : s3Sigv4ResolveRequestTime now r comp = .ok amzDate)
    (hread : comp.presigned = true ∨ ¬sameHeaderName (ascii "x-amz-date") tok) :
    s3Sigv4ResolveRequestTime now (r.withHeader tok value hvalue) comp = .ok amzDate := by
  rw [s3Sigv4ResolveRequestTime] at h ⊢
  split
  · next hpresigned => rwa [if_pos hpresigned] at h
  · next hpresigned =>
    rw [if_neg hpresigned] at h
    rw [S3Request.getHeader_withHeader_of_ne (hread.resolve_left hpresigned)]
    exact h

end

theorem Binds.printed (h : a.Binds) {tok : Bytes} (htok : tok ∈ a.names)
    (hunread : a.Unread tok) : ∃ tok' ∈ a.printedNames, sameHeaderName tok tok' := by
  by_contra hcut
  have hvalue : 10 ∉ a.request.getHeader tok ++ [120] ∧ 0 ∉ a.request.getHeader tok ++ [120] := by
    simpa using a.request.getHeader_text tok
  have hlines : (a.request.withHeader tok _ hvalue).buildCanonicalHeaders a.comp.signedHdrs =
      a.request.buildCanonicalHeaders a.comp.signedHdrs := by
    apply S3Request.canonicalHeadersFrom_withHeader
    · simp
    · intro name hname hsame
      refine hcut ⟨name, hname, ?_⟩
      rw [sameHeaderName_iff] at hsame ⊢
      exact hsame.symm
  have hcomputed : s3Sigv4ComputeSignature hash secret (a.request.withHeader tok _ hvalue)
        a.comp a.amzDate a.stack a.cache =
      s3Sigv4ComputeSignature hash secret a.request a.comp a.amzDate a.stack a.cache :=
    s3Sigv4ComputeSignature_congr rfl rfl rfl hlines rfl rfl
  have hsame := h.sameSigned
    (s3Sigv4ParseAuthzHeader_withHeader a.parsed (hunread.imp_right And.left))
    (s3Sigv4ResolveRequestTime_withHeader a.resolved (hunread.imp_right And.right)) hcomputed
  have hvalues := hsame.values tok htok
  rw [S3Request.signedValue_eq, S3Request.signedValue_eq] at hvalues
  have hnew : (a.request.withHeader tok _ hvalue).getHeader tok = _ :=
    S3Request.getHeader_withHeader_same (by simp [sameHeaderName])
  exact trimBlanks_append_ne (by decide) _ (hnew ▸ hvalues.symm)

/-- A signature binds a request that fits its buffers. It binds no request whose URI does not fit,
and none with a header line left out, unless it is of a header the check itself reads. -/
theorem signature_binds (hash : SigV4Hash) (secret : Bytes) (a : SigV4Check hash secret) :
    (a.FitsBuffers → a.Binds) ∧
      (a.Binds → a.UriFits ∧ ∀ tok ∈ a.names, a.Unread tok →
        ∃ tok' ∈ a.printedNames, sameHeaderName tok tok') :=
  ⟨binds_of_fits, fun h => ⟨h.uriFits, fun _ htok hunread => h.printed htok hunread⟩⟩

end SigV4Check

/-! ## A header that is not signed -/

/-- `SignedHeaders` of the samples -/
def metaNames : Bytes := ascii "host;x-amz-meta-a;x-amz-meta-b"

/-- A `PUT` with a first metadata header as long as the buffer of the header lines -/
def metaRequest (second : UInt8) (hsecond : second ≠ 10 ∧ second ≠ 0) : S3Request where
  methodName := ascii "PUT"
  uri := ascii "/b/k"
  query := []
  headers :=
    [(ascii "Host", ascii "h"), (ascii "X-Amz-Date", ascii "20260512T000000Z"),
      (ascii "Authorization", ascii "AWS4-HMAC-SHA256 Credential=K/20260512/r/s3/aws4_request, " ++
        ascii "SignedHeaders=" ++ metaNames ++ ascii ", Signature=" ++ replicate 64 48),
      (ascii "x-amz-meta-a", replicate 2048 97), (ascii "x-amz-meta-b", [second])]
  methodText := by decide
  headerText := by
    have hlong : 10 ∉ replicate 2048 (97 : UInt8) ∧ 0 ∉ replicate 2048 (97 : UInt8) :=
      ⟨fun h => absurd (eq_of_mem_replicate h) (by decide),
        fun h => absurd (eq_of_mem_replicate h) (by decide)⟩
    simp only [forall_mem_cons]
    refine ⟨by decide, by decide, by decide, hlong, ?_, nofun⟩
    simpa using ⟨Ne.symm hsecond.1, Ne.symm hsecond.2⟩

def metaComponents : SigV4Components where
  akid := ascii "K"
  date := ascii "20260512"
  region := ascii "r"
  amzDate := []
  signedHdrs := metaNames
  signature := replicate 64 48
  presigned := false
  amzExpires := 0

/-- The first line leaves no room for the second metadata header, and two requests that differ in
it have one signature, whatever the hashes are. -/
theorem unsigned_second_header : ∀ hash : SigV4Hash, ∃ a b : SigV4Check hash (ascii "secret"),
    a.request = metaRequest 49 (by decide) ∧ b.request = metaRequest 50 (by decide) ∧
      a.NoCollision b ∧ a.out.computedHex = b.out.computedHex ∧ ¬a.SameSigned b := by
  intro hash
  let stack : SigV4Stack := ⟨[], not_mem_nil, fun _ => 0, fun _ => 0⟩
  let cache : SigningKeyCache := ⟨[], [], [], []⟩
  have hquery : buildCanonicalParsedQs (metaRequest 49 (by decide)).query
      metaComponents.presigned = some [] := rfl
  obtain ⟨out, hout⟩ : ∃ out, s3Sigv4ComputeSignature hash (ascii "secret")
      (metaRequest 49 (by decide)) metaComponents (ascii "20260512T000000Z") stack cache =
        .ok out := s3Sigv4ComputeSignature_ok hquery rfl
  have hlines : (metaRequest 50 (by decide)).buildCanonicalHeaders metaComponents.signedHdrs =
      (metaRequest 49 (by decide)).buildCanonicalHeaders metaComponents.signedHdrs := by
    decide +kernel
  have huri : canonicalUri (metaRequest 50 (by decide)).uri stack =
      canonicalUri (metaRequest 49 (by decide)).uri stack := by rw [metaRequest, metaRequest]
  have hout' : s3Sigv4ComputeSignature hash (ascii "secret")
      (metaRequest 50 (by decide)) metaComponents (ascii "20260512T000000Z") stack cache =
        .ok out := by
    rw [← hout]
    exact s3Sigv4ComputeSignature_congr rfl huri rfl hlines rfl rfl
  refine ⟨⟨metaRequest 49 (by decide), 1778544000, stack, cache, metaComponents,
      ascii "20260512T000000Z", out, by decide +kernel, by decide +kernel, hout⟩,
    ⟨metaRequest 50 (by decide), 1778544000, stack, cache, metaComponents,
      ascii "20260512T000000Z", out, by decide +kernel, by decide +kernel, hout'⟩,
    rfl, rfl, ⟨fun _ => rfl, fun _ => rfl⟩, rfl, fun hsame => ?_⟩
  have hname : ascii "x-amz-meta-b" ∈ Words.words 59 metaNames := by decide +kernel
  have hvalues : trimBlanks ((metaRequest 49 (by decide)).signedValue (ascii "x-amz-meta-b")) ≠
      trimBlanks ((metaRequest 50 (by decide)).signedValue (ascii "x-amz-meta-b")) := by
    decide +kernel
  exact hvalues (hsame.values (ascii "x-amz-meta-b") hname)

theorem second_header_unsigned :
    ¬∀ (hash : SigV4Hash) (secret : Bytes) (a b : SigV4Check hash secret),
      a.NoCollision b → a.out.computedHex = b.out.computedHex → a.SameSigned b := by
  intro h
  obtain ⟨a, b, _, _, hcollide, hhex, hdiffer⟩ := unsigned_second_header
    ⟨fun _ => replicate 32 0, fun _ _ => replicate 32 0, fun _ => rfl, fun _ _ => rfl⟩
  exact hdiffer (h _ _ a b hcollide hhex)

end BrixCache
