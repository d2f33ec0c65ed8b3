import BrixCache.Core.Calendar
import BrixCache.Core.LockRecord
import BrixCache.S3.Chunked
import Mathlib.Data.List.Sort

/-!
# The credentials of a signed request

`auth_sigv4_parse.c` and `auth_sigv4_verify_time.c`: the components of a SigV4 signature as they
are read from the `Authorization` header or from the query of a presigned URL, and the time the
request was signed at.
-/

namespace BrixCache

/-! ## Requests -/

/-- `brix_http_query_param_t`: a name and a value, both decoded -/
structure QueryParam : Type where
  name : Bytes
  value : Bytes
  hasValue : Bool
  deriving DecidableEq

/-- What the check of a signature reads of a request. nginx takes in no method and no header value
with a line feed or a NUL in it. -/
structure S3Request : Type where
  methodName : Bytes
  uri : Bytes
  /-- `ctx->query` -/
  query : List QueryParam
  /-- names and values, as they stand in the request -/
  headers : List (Bytes × Bytes)
  methodText : 10 ∉ methodName ∧ 0 ∉ methodName
  headerText : ∀ h ∈ headers, 10 ∉ h.2 ∧ 0 ∉ h.2

/-- Header names are compared without regard to case. -/
def sameHeaderName (name name' : Bytes) : Bool := name.map ngxTolower = name'.map ngxTolower

namespace S3Request

variable (r : S3Request)

/-- `get_header`: the first of the name, or nothing -/
def getHeader (name : Bytes) : Bytes :=
  ((r.headers.find? fun h => sameHeaderName h.1 name).map (·.2)).getD []

/-- `brix_http_query_find_singleton`, failing for two of the name -/
def queryFindSingleton (key : Bytes) : Except Unit (Option QueryParam) :=
  match r.query.filter fun p => p.name = key with
  | [] => .ok none
  | [p] => .ok (some p)
  | _ => .error ()

/-- `s3_get_query_param`: a value, not empty, that fits the buffer, as the string in it -/
def s3GetQueryParam (key : Bytes) (outsz : ℕ) : Option Bytes :=
  match r.queryFindSingleton key with
  | .ok (some p) =>
    if ¬p.hasValue ∨ p.value = [] ∨ outsz ≤ p.value.length then none
    else some (p.value.takeWhile (· ≠ 0))
  | _ => none

end S3Request

/-! ## Components -/

/-- The parts of a signed request's credentials -/
structure SigV4Components : Type where
  akid : Bytes
  date : Bytes
  region : Bytes
  amzDate : Bytes
  signedHdrs : Bytes
  signature : Bytes
  presigned : Bool
  amzExpires : ℕ
  deriving DecidableEq

/-- `sigv4_find_auth_pair`: what follows `name=` where a pair may begin -/
def sigv4FindAuthPair (name : Bytes) : Bool → Bytes → Option Bytes
  | _, [] => none
  | boundary, b :: bs =>
    if (b :: bs).length ≤ name.length then none
    else if boundary ∧ (b :: bs).take (name.length + 1) = name ++ [61] then
      some ((b :: bs).drop (name.length + 1))
    else sigv4FindAuthPair name (b = 32 ∨ b = 44) bs

/-- A component that is there and fits its buffer. -/
def sigv4CopyComponent (value : Bytes) (dstSize : ℕ) : Option Bytes :=
  if value = [] ∨ dstSize ≤ value.length then none else some value

/-- The value of a named pair of the header. -/
def sigv4ExtractAuthValue (pairs name : Bytes) (dstSize : ℕ) : Option Bytes := do
  let rest ← sigv4FindAuthPair name true pairs
  sigv4CopyComponent (rest.takeWhile fun b => b ≠ 44 ∧ b ≠ 32 ∧ b ≠ 0) dstSize

/-- A text before and after its first slash -/
def cutAtSlash (text : Bytes) : Option (Bytes × Bytes) :=
  match text.dropWhile (· ≠ slash) with
  | [] => none
  | _ :: rest => some (text.takeWhile (· ≠ slash), rest)

/-- `sigv4_parse_credential_scope`: the key id, the date and the region -/
def sigv4ParseCredentialScope (credential : Bytes) :
    Option (Bytes × Bytes × Bytes) := do
  let (akid, rest) ← cutAtSlash credential
  let (date, rest) ← cutAtSlash rest
  let (region, _) ← cutAtSlash rest
  return (← sigv4CopyComponent akid 128, ← sigv4CopyComponent date 16,
    ← sigv4CopyComponent region 64)

def s3CredentialBufSize : ℕ := 256
def s3SignedHeadersBufSize : ℕ := 256
def s3Sigv4ExpiryMaxSec : ℕ := 604800

/-- The components of an authorization header. -/
def parseAuthorization (auth : Bytes) : Option SigV4Components := do
  if ¬startsWithNoCase (ascii "aws4-hmac-sha256 ") auth then none
  else
    let pairs := auth.drop 17
    let signedHdrs ← sigv4ExtractAuthValue pairs (ascii "SignedHeaders") s3SignedHeadersBufSize
    let signature ← sigv4ExtractAuthValue pairs (ascii "Signature") 128
    let credential ← sigv4ExtractAuthValue pairs (ascii "Credential") s3CredentialBufSize
    let (akid, date, region) ← sigv4ParseCredentialScope credential
    return { akid, date, region, amzDate := [], signedHdrs, signature,
             presigned := false, amzExpires := 0 }

/-- `sigv4_parse_expires`, by `strtoul`: a number from one on, negated when it has a sign -/
def sigv4ParseExpires (value : Bytes) : Option ℕ :=
  let (negative, number) := match value.dropWhile isCSpace with
    | 45 :: number => (true, number)
    | 43 :: number => (false, number)
    | number => (false, number)
  if number = [] ∨ ¬number.all isCDigit ∨ 2 ^ 64 ≤ digitsValue number then none
  else
    let parsed := if negative then (2 ^ 64 - digitsValue number) % 2 ^ 64 else digitsValue number
    if parsed = 0 ∨ s3Sigv4ExpiryMaxSec < parsed then none else some parsed

/-- `parse_presigned_authorization`; an absent signature declines, and anything else that is
missing is an error -/
def parsePresignedAuthorization (r : S3Request) : Except Unit (Option SigV4Components) :=
  match r.queryFindSingleton (ascii "X-Amz-Signature") with
  | .ok none => .ok none
  | _ =>
    match (do
      let signature ← r.s3GetQueryParam (ascii "X-Amz-Signature") 128
      let algorithm ← r.s3GetQueryParam (ascii "X-Amz-Algorithm") 64
      guard (algorithm = ascii "AWS4-HMAC-SHA256")
      let credential ← r.s3GetQueryParam (ascii "X-Amz-Credential") s3CredentialBufSize
      let amzDate ← r.s3GetQueryParam (ascii "X-Amz-Date") 32
      let expires ← r.s3GetQueryParam (ascii "X-Amz-Expires") 32
      let signedHdrs ← r.s3GetQueryParam (ascii "X-Amz-SignedHeaders") s3SignedHeadersBufSize
      let (akid, date, region) ← sigv4ParseCredentialScope credential
      let amzExpires ← sigv4ParseExpires expires
      return { akid, date, region, amzDate, signedHdrs, signature, presigned := true, amzExpires :
        SigV4Components }) with
    | none => .error ()
    | some comp => .ok (some comp)

def s3Sigv4ParseAuthzHeader (r : S3Request) : Except String SigV4Components :=
  match parsePresignedAuthorization r with
  | .error () => .error "Malformed presigned URL"
  | .ok (some comp) => .ok comp
  | .ok none =>
    let auth := r.getHeader (ascii "authorization")
    if auth = [] then .error "Missing Authorization header"
    else
      match parseAuthorization auth with
      | none => .error "Malformed Authorization header"
      | some comp => .ok comp

/-! ## The time of the request -/

/-- `s3_parse_2digits` and `s3_parse_4digits` -/
def s3ParseDigits (text : Bytes) : Option ℕ :=
  if text.all isCDigit then some (digitsValue text) else none

def s3ParseAmzDatetime (s : Bytes) : Option ℤ := do
  guard (s.length = 16 ∧ s[8]? = some 84 ∧ s[15]? = some 90)
  let year ← s3ParseDigits (s.take 4)
  let mon ← s3ParseDigits ((s.drop 4).take 2)
  let day ← s3ParseDigits ((s.drop 6).take 2)
  let hour ← s3ParseDigits ((s.drop 9).take 2)
  let min ← s3ParseDigits ((s.drop 11).take 2)
  let sec ← s3ParseDigits ((s.drop 13).take 2)
  guard (1970 ≤ year ∧ 1 ≤ mon ∧ mon ≤ 12 ∧ 1 ≤ day ∧ day ≤ 31 ∧ hour ≤ 23 ∧ min ≤ 59 ∧ sec ≤ 60)
  return timegm ⟨year, mon, day, hour, min, sec⟩

/-- `BRIX_S3_SIGV4_HEADER_SKEW_SEC` and `BRIX_S3_SIGV4_FUTURE_SKEW_SEC` -/
def s3Sigv4SkewSec : ℤ := 900

/-- `s3_sigv4_resolve_request_time`: the text of the time, when the request is not out of date -/
def s3Sigv4ResolveRequestTime (now : ℤ) (r : S3Request) (comp : SigV4Components) :
    Except String Bytes :=
  if comp.presigned then
    match s3ParseAmzDatetime comp.amzDate with
    | none => .error "Invalid X-Amz-Date"
    | some requestTime =>
      if s3Sigv4SkewSec < requestTime - now then
        .error "The difference between the request time and the server time is too large."
      else if comp.amzExpires < now - requestTime then .error "Request has expired"
      else .ok comp.amzDate
  else
    let dateHdr := r.getHeader (ascii "x-amz-date")
    if dateHdr = [] then .error "Missing X-Amz-Date header"
    else if 32 ≤ dateHdr.length then .error "Invalid X-Amz-Date"
    else
      match s3ParseAmzDatetime dateHdr with
      | none => .error "Invalid X-Amz-Date"
      | some requestTime =>
        if s3Sigv4SkewSec < requestTime - now ∨ s3Sigv4SkewSec < now - requestTime then
          .error "The difference between the request time and the server time is too large."
        else .ok dateHdr

end BrixCache

/-!
## The SigV4 signature of a request

SHA-256 and HMAC are parameters, and so is what the stack holds where a buffer has not been
written.
-/

namespace BrixCache

/-! ### Percent-encoding -/

/-- The unreserved bytes, of `sigv4_is_unreserved` and of `brix_http_urlencode` -/
def isUnreserved (c : UInt8) : Bool :=
  (65 ≤ c && c ≤ 90) || (97 ≤ c && c ≤ 122) || (48 ≤ c && c ≤ 57) || c = 45 || c = 95 || c = 46 ||
    c = 126

/-- A digit of `"0123456789ABCDEF"` -/
def upperNibble (n : ℕ) : UInt8 := if n < 10 then UInt8.ofNat (n + 48) else UInt8.ofNat (n + 55)

/-- What `brix_http_urlencode` writes for a byte -/
def urlencodeByte (safeExtra : Bytes) (c : UInt8) : Bytes :=
  if c ≠ 0 ∧ (isUnreserved c ∨ c ∈ safeExtra) then [c]
  else [37, upperNibble (c.toNat / 16), upperNibble (c.toNat % 16)]

/-- The loop of `brix_http_urlencode`: what is in the buffer, and whether everything is -/
def urlencodeFrom (dstsz : ℕ) (safeExtra out : Bytes) : Bytes → Bytes × Bool
  | [] => (out, true)
  | c :: src =>
    if dstsz ≤ out.length + (urlencodeByte safeExtra c).length then (out, false)
    else urlencodeFrom dstsz safeExtra (out ++ urlencodeByte safeExtra c) src

/-- `brix_http_urlencode`. The buffer gets its NUL only when everything is in it. -/
def brixHttpUrlencode (src : Bytes) (dstsz : ℕ) (safeExtra : Bytes) :
    Bytes × Bool :=
  urlencodeFrom dstsz safeExtra [] src

/-! ### The query string -/

def s3HeaderNameBufSize : ℕ := 256
def s3HeaderValueBufSize : ℕ := 2048
def s3QueryEncodeBufSize : ℕ := 6144
def s3CanonicalQueryBufSize : ℕ := 8192

/-- `sigv4_encoded_cmp`, not above: the bytes of the two encodings from the front -/
def sigv4EncodedLe : Bytes → Bytes → Bool
  | [], _ => true
  | _ :: _, [] => false
  | a :: as, b :: bs => if a = b then sigv4EncodedLe as bs else a < b

/-- `qparam_cmp`, not above -/
def qparamLe (a b : Bytes × Bytes) : Bool :=
  let encoded (x : Bytes) := x.flatMap (urlencodeByte [])
  if encoded a.1 = encoded b.1 then sigv4EncodedLe (encoded a.2) (encoded b.2)
  else sigv4EncodedLe (encoded a.1) (encoded b.1)

/-- Append a text, percent encoded. -/
def sigv4AppendEncoded (out src : Bytes) : Option Bytes :=
  match brixHttpUrlencode src s3QueryEncodeBufSize [] with
  | (_, false) => none
  | (enc, true) =>
    if s3CanonicalQueryBufSize ≤ out.length + enc.length then none else some (out ++ enc)

def sigv4AppendByte (out : Bytes) (b : UInt8) : Option Bytes :=
  if s3CanonicalQueryBufSize ≤ out.length + 1 then none else some (out ++ [b])

/-- The sorted parameters, joined with `&`. -/
def sigv4EmitCanonicalQs : Bytes → List (Bytes × Bytes) → Option Bytes
  | out, [] => some out
  | out, (name, value) :: params => do
    let out ← sigv4AppendEncoded out name
    let out ← sigv4AppendByte out 61
    let out ← sigv4AppendEncoded out value
    if params = [] then return out
    else
      let out ← sigv4AppendByte out 38
      sigv4EmitCanonicalQs out params

/-- The parameters that are signed: all but the signature of a presigned request -/
def signedQuery (query : List QueryParam) (skipSignature : Bool) : List (Bytes × Bytes) :=
  (query.filter fun p => ¬(skipSignature ∧ p.name = ascii "X-Amz-Signature")).map
    fun p => (p.name, p.value)

/-- The canonical query of at most 64 parameters. -/
def buildCanonicalParsedQs (query : List QueryParam) (skipSignature : Bool) :
    Option Bytes :=
  let params := signedQuery query skipSignature
  if 64 < params.length then none
  else if params.any fun p =>
      s3HeaderNameBufSize ≤ p.1.length ∨ s3HeaderValueBufSize ≤ p.2.length then none
  else sigv4EmitCanonicalQs [] (params.insertionSort fun a b => qparamLe a b)

/-! ### The headers -/

def s3CanonicalHeadersBufSize : ℕ := 2048

def isBlank (b : UInt8) : Bool := b = 32 || b = 9

/-- A value without the blanks around it -/
def trimBlanks (value : Bytes) : Bytes :=
  ((value.dropWhile isBlank).reverse.dropWhile isBlank).reverse

namespace S3Request

variable (r : S3Request)

/-- `headers_in.host`, the one `Host` line nginx lets in -/
def host : Bytes := r.getHeader (ascii "host")

/-- The value of a token of `SignedHeaders` -/
def signedValue (tok : Bytes) : Bytes :=
  if tok = ascii "host" then r.host else r.getHeader tok

def headerLine (tok : Bytes) : Bytes :=
  tok.map ngxTolower ++ 58 :: trimBlanks (r.signedValue tok) ++ [10]

/-- The loop of `build_canonical_headers` -/
def canonicalHeadersFrom (out : Bytes) : List Bytes → Bytes
  | [] => out
  | tok :: toks =>
    if s3CanonicalHeadersBufSize ≤
        out.length + tok.length + 1 + (r.signedValue tok).length + 2 then out
    else canonicalHeadersFrom (out ++ r.headerLine tok) toks

/-- One line for each signed header. -/
def buildCanonicalHeaders (signedHdrs : Bytes) : Bytes :=
  r.canonicalHeadersFrom [] (Words.words 59 signedHdrs)

end S3Request

/-! ### The signature -/

/-- SHA-256 and HMAC, of which only the lengths are known -/
structure SigV4Hash : Type where
  sha256 : Bytes → Bytes
  hmac : Bytes → Bytes → Bytes
  sha256_length : ∀ text, (sha256 text).length = 32
  hmac_length : ∀ key text, (hmac key text).length = 32

/-- `s_signing_key_cache`, one slot of a worker -/
structure SigningKeyCache : Type where
  date : Bytes
  region : Bytes
  secretFp : Bytes
  key : Bytes

/-- `brix_sigv4_signing_key` for the service `s3` -/
def brixSigv4SigningKey (hash : SigV4Hash) (secret date region : Bytes) :
    Option Bytes :=
  if 128 < secret.length + 4 then none
  else
    let k1 := hash.hmac (ascii "AWS4" ++ secret) date
    let k2 := hash.hmac k1 region
    let k3 := hash.hmac k2 (ascii "s3")
    some (hash.hmac k3 (ascii "aws4_request"))

/-- `s3_sigv4_derive_signing_key_cached`: the key, and the slot after it -/
def s3Sigv4DeriveSigningKeyCached (hash : SigV4Hash) (secret date region : Bytes)
    (cache : SigningKeyCache) : Option (Bytes × SigningKeyCache) :=
  let secretFp := hash.sha256 secret
  if cache.date ≠ [] ∧ cache.date = date ∧ cache.region = region ∧ cache.secretFp = secretFp then
    some (cache.key, cache)
  else do
    let key ← brixSigv4SigningKey hash secret date region
    return (key, ⟨date.take 8, region.take 64, secretFp, key⟩)

/-- What the buffers of `s3_sigv4_compute_signature` hold before they are written, up to a NUL for
the URI, and what lies behind them -/
structure SigV4Stack : Type where
  canonUri : Bytes
  uriText : 0 ∉ canonUri
  behindCanonical : ℕ → UInt8
  behindToSign : ℕ → UInt8

/-- The bytes hashed of a text that `snprintf` has put into a buffer. The length is the one of the
whole text, of which the buffer may hold less. -/
def printedBytes (size : ℕ) (behind : ℕ → UInt8) (text : Bytes) : Bytes :=
  if text.length < size then text
  else text.take (size - 1) ++ 0 :: (List.range (text.length - size)).map behind

def s3MaxKey : ℕ := 4096
def s3Sigv4CanonicalMax : ℕ := 16384
def s3Sigv4StringToSignMax : ℕ := 4096

/-- The canonical URI. What `brix_http_urlencode` returns is not looked at. -/
def canonicalUri (uri : Bytes) (stack : SigV4Stack) : Bytes :=
  match brixHttpUrlencode uri s3MaxKey [slash] with
  | (out, true) => out
  | (out, false) => out ++ stack.canonUri

/-- The canonical request, around the query string and the headers -/
def canonicalRequest (methodName uri qs hdrs signedHdrs : Bytes) : Bytes :=
  methodName ++ 10 :: (uri ++ 10 :: (qs ++ 10 :: (hdrs ++ 10 :: (signedHdrs ++
    10 :: ascii "UNSIGNED-PAYLOAD"))))

/-- The string to sign, from the digest of the canonical request -/
def stringToSign (amzDate date region hashHex : Bytes) : Bytes :=
  ascii "AWS4-HMAC-SHA256" ++ 10 :: (amzDate ++ 10 :: (date ++ 47 :: (region ++
    ascii "/s3/aws4_request" ++ 10 :: hashHex)))

/-- What `s3_sigv4_compute_signature` leaves: `s3_sigv4_sig_out_t`, the bytes that were hashed, the
bytes that were signed, and the slot of the key -/
structure SigV4SigOut : Type where
  k4 : Bytes
  computedHex : Bytes
  hashed : Bytes
  signed : Bytes
  cache : SigningKeyCache

def s3Sigv4ComputeSignature (hash : SigV4Hash) (secret : Bytes) (r : S3Request)
    (comp : SigV4Components) (amzDate : Bytes) (stack : SigV4Stack)
    (cache : SigningKeyCache) : Except String SigV4SigOut :=
  match buildCanonicalParsedQs r.query comp.presigned with
  | none => .error "Query string cannot be canonicalized"
  | some qs =>
    let canonical := canonicalRequest r.methodName (canonicalUri r.uri stack) qs
      (r.buildCanonicalHeaders comp.signedHdrs) comp.signedHdrs
    let hashed := printedBytes s3Sigv4CanonicalMax stack.behindCanonical canonical
    let signed := printedBytes s3Sigv4StringToSignMax stack.behindToSign
      (stringToSign amzDate comp.date comp.region (brixHexEncode (hash.sha256 hashed)))
    match s3Sigv4DeriveSigningKeyCached hash secret comp.date comp.region cache with
    | none => .error "Internal error"
    | some (k4, cache) =>
      .ok { k4, computedHex := brixHexEncode (hash.hmac k4 signed), hashed, signed, cache }

end BrixCache
