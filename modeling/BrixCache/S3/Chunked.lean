import BrixCache.Core.Ascii
import Mathlib.Algebra.Group.Nat.Defs

/-!
# Decoding an `aws-chunked` body

`aws_chunked_parse.c` and `aws_chunked.c`: the framing machine, the check of each chunk's
signature, and the drive over the buffers of a request body. SHA-256 and HMAC are parameters;
the storage says for each offset whether it takes a byte there.
-/

namespace BrixCache

/-! ## The context -/

/-- The states of the parser -/
inductive ChunkState : Type where
  | size | ext | sizeLf | data | dataCr | dataLf | trailer | done | error
  deriving DecidableEq

/-- `s3_chunk_verify_t`, when it is enabled -/
structure S3ChunkVerify : Type where
  signingKey : Bytes
  seedSignature : Bytes
  amzDate : Bytes
  scope : Bytes

/-- What a decode is run with -/
structure ChunkEnv : Type where
  verify : Option S3ChunkVerify
  sha256 : Bytes → Bytes
  hmac : Bytes → Bytes → Bytes
  /-- the file takes a byte at this offset -/
  writable : ℕ → Bool
  /-- `decoded_len_expected` -/
  expected : ℕ

/-- A trailer line -/
structure S3ChunkTrailer : Type where
  algoToken : Bytes
  value : Bytes
  deriving DecidableEq

/-- `s3_chunk_ctx_t`. The payload is written from offset 0 on without gaps, so `write_off` and
`total_decoded` are the length of what is `written`. -/
structure ChunkCtx : Type where
  state : ChunkState
  curSize : ℕ
  sizeDigits : Bool
  chunkRemaining : ℕ
  written : Bytes
  line : Bytes
  trailer : S3ChunkTrailer
  httpStatus : ℕ
  /-- what the streaming hash has taken in -/
  sha : Bytes
  prevSig : Bytes
  ext : Bytes
  /-- the payload state is only entered with payload owed -/
  owed : state = .data → 0 < chunkRemaining

/-- `NGX_HTTP_BAD_REQUEST` -/
def httpBadRequest : ℕ := 400
/-- `NGX_HTTP_FORBIDDEN` -/
def httpForbidden : ℕ := 403
/-- `NGX_HTTP_INTERNAL_SERVER_ERROR` -/
def httpInternalServerError : ℕ := 500

namespace ChunkCtx

/-- `s3_chunk_fail` -/
def fail (c : ChunkCtx) (status : ℕ) : ChunkCtx :=
  { c with state := .error, httpStatus := status, owed := nofun }

/-- The machine stops at the end of the stream and on an error. -/
def ended (c : ChunkCtx) : Bool := c.state = .done ∨ c.state = .error

end ChunkCtx

/-! ## Signatures -/

def ngxTolower (b : UInt8) : UInt8 := if 65 ≤ b ∧ b ≤ 90 then b + 32 else b

/-- `ngx_strncasecmp` finds the text, given in lower case, at the front. -/
def startsWithNoCase (text bs : Bytes) : Bool := (bs.take text.length).map ngxTolower = text

/-- A hex digit of either case. -/
def s3Hexdigit (c : UInt8) : Option ℕ :=
  if 48 ≤ c ∧ c ≤ 57 then some (c.toNat - 48)
  else if 97 ≤ c ∧ c ≤ 102 then some (c.toNat - 97 + 10)
  else if 65 ≤ c ∧ c ≤ 70 then some (c.toNat - 65 + 10)
  else none

/-- `chunk-signature=` -/
def chunkSignatureKey : Bytes := ascii "chunk-signat" ++ ascii "ure="

/-- `s3_chunk_ext_signature`: the 64 digits behind the first key -/
def s3ChunkExtSignature : Bytes → Option Bytes
  | [] => none
  | b :: bs =>
    if startsWithNoCase chunkSignatureKey (b :: bs) then
      let digits := ((b :: bs).drop chunkSignatureKey.length).take 64
      if digits.length = 64 ∧ digits.all fun d => (s3Hexdigit d).isSome then some digits else none
    else s3ChunkExtSignature bs

/-- A digit of `brix_hex_encode` -/
def hexNibble (n : ℕ) : UInt8 := if n < 10 then UInt8.ofNat (n + 48) else UInt8.ofNat (n + 87)

def brixHexEncode (bs : Bytes) : Bytes :=
  bs.flatMap fun b => [hexNibble (b.toNat / 16), hexNibble (b.toNat % 16)]

def s3EmptySha256Hex : Bytes :=
  ["e3b0c44298fc", "1c149afbf4c8", "996fb92427ae", "41e4649b934c", "a495991b7852", "b855"].flatMap
    ascii

/-- The signature of a payload behind the signature `prev` -/
def chunkSignature (env : ChunkEnv) (v : S3ChunkVerify) (prev payload : Bytes) : Bytes :=
  brixHexEncode (env.hmac v.signingKey
    (ascii "AWS4-HMAC-SHA256-PAYLOAD\n" ++ v.amzDate ++ [10] ++ v.scope ++ [10] ++ prev ++ [10] ++
      s3EmptySha256Hex ++ [10] ++ brixHexEncode (env.sha256 payload)))

variable (env : ChunkEnv)

/-- `s3_chunk_verify`, and the `c->verify` before it -/
def s3ChunkVerify (c : ChunkCtx) : ChunkCtx :=
  match env.verify with
  | none => c
  | some v =>
    match s3ChunkExtSignature c.ext with
    | none => c.fail httpForbidden
    | some provided =>
      let computed := chunkSignature env v c.prevSig c.sha
      let c := { c with sha := [] }
      if computed ≠ provided then c.fail httpForbidden else { c with prevSig := provided }

/-! ## The states -/

/-- One byte of a chunk's size. -/
def chunkScanSizeLine (c : ChunkCtx) (ch : UInt8) : ChunkCtx :=
  match s3Hexdigit ch with
  | some v =>
    if (2 ^ 64 - 1) / 16 < c.curSize then c.fail httpBadRequest
    else { c with curSize := c.curSize * 16 + v, sizeDigits := true }
  | none =>
    if ch = 59 then { c with state := .ext, owed := nofun }
    else if ch = 13 then
      if ¬ c.sizeDigits then c.fail httpBadRequest
      else { c with state := .sizeLf, owed := nofun }
    else c.fail httpBadRequest

def s3ChunkExtMax : ℕ := 128

/-- One byte of a chunk's signature extension. -/
def chunkScanExtSig (c : ChunkCtx) (ch : UInt8) : ChunkCtx :=
  if ch = 13 then { c with state := .sizeLf, owed := nofun }
  else if env.verify.isSome ∧ c.ext.length < s3ChunkExtMax then { c with ext := c.ext ++ [ch] }
  else c

/-- The end of a size line opens the chunk or the trailer. -/
def chunkScanSizeLf (c : ChunkCtx) (ch : UInt8) : ChunkCtx :=
  if ch ≠ 10 then c.fail httpBadRequest
  else if h : c.curSize = 0 then
    -- the terminating chunk: its signature covers the empty payload
    let c' := s3ChunkVerify env { c with chunkRemaining := 0, state := .sizeLf, owed := nofun }
    if c'.state = .error then c'
    else { c' with state := .trailer, line := [], curSize := 0, sizeDigits := false, owed := nofun }
  else
    { c with
      state := .data, chunkRemaining := c.curSize, curSize := 0, sizeDigits := false
      owed := fun _ => Nat.pos_of_ne_zero h }

/-- `brix_vfs_pwrite_full`: what is in the file after it -/
def vfsPwriteFull : ℕ → Bytes → Bytes
  | _, [] => []
  | off, b :: bs => if env.writable off then b :: vfsPwriteFull (off + 1) bs else []

/-- Write decoded bytes, never more than announced. -/
def s3ChunkEmit (c : ChunkCtx) (p : Bytes) : ChunkCtx :=
  if env.expected < c.written.length + p.length then c.fail httpBadRequest
  else
    let taken := vfsPwriteFull env c.written.length p
    let c := { c with written := c.written ++ taken }
    if taken.length < p.length then c.fail httpInternalServerError else c

/-- The second half of `chunk_consume_data`: `n` more bytes of the chunk are in -/
def chunkAdvance (c : ChunkCtx) (n : ℕ) : ChunkCtx :=
  if h : n < c.chunkRemaining then
    { c with chunkRemaining := c.chunkRemaining - n, owed := fun _ => Nat.sub_pos_of_lt h }
  else s3ChunkVerify env { c with chunkRemaining := 0, state := .dataCr, owed := nofun }

/-- `chunk_consume_data`, with the bytes it takes -/
def chunkConsumeData (c : ChunkCtx) (p : Bytes) : ChunkCtx :=
  let c := s3ChunkEmit env { c with sha := if env.verify.isSome then c.sha ++ p else c.sha } p
  if c.state = .error then c else chunkAdvance env c p.length

/-- The line end behind a chunk's data. -/
def chunkScanDataCrlf (c : ChunkCtx) (ch : UInt8) : ChunkCtx :=
  if c.state = .dataCr then
    if ch ≠ 13 then c.fail httpBadRequest else { c with state := .dataLf, owed := nofun }
  else if ch ≠ 10 then c.fail httpBadRequest
  else { c with state := .size, ext := [], owed := nofun }

/-- `x-amz-checksum-` -/
def amzChecksumPrefix : Bytes := ascii "x-amz-checks" ++ ascii "um-"

/-- Keep the checksum of a trailer line. -/
def s3ChunkTrailerLine (trailer : S3ChunkTrailer) (line : Bytes) : S3ChunkTrailer :=
  let pfxn := amzChecksumPrefix.length
  let name := line.takeWhile (· ≠ 58)
  if line.length ≤ pfxn ∨ ¬ startsWithNoCase amzChecksumPrefix line then trailer
  else if name.length = line.length then trailer
  else if name.length ≤ pfxn ∨ 16 ≤ name.length - pfxn then trailer
  else
    { algoToken := (name.drop pfxn).map ngxTolower
      value := ((line.drop (name.length + 1)).dropWhile fun b => b = 32 ∨ b = 9).take 63 }

def s3ChunkMaxLine : ℕ := 512

/-- A line without the carriage return at its end -/
def stripCr (line : Bytes) : Bytes :=
  if line.getLast? = some 13 then line.dropLast else line

/-- One byte of the trailer; an empty line ends it. -/
def chunkScanTrailer (c : ChunkCtx) (ch : UInt8) : ChunkCtx :=
  if ch = 10 then
    if stripCr c.line = [] then { c with line := [], state := .done, owed := nofun }
    else { c with trailer := s3ChunkTrailerLine c.trailer (stripCr c.line), line := [] }
  else if c.line.length < s3ChunkMaxLine then { c with line := c.line ++ [ch] }
  else c

/-! ## The drive -/

/-- `chunk_feed_step`, on a span that starts with `ch`: what is left of the span -/
def chunkFeedStep (c : ChunkCtx) (ch : UInt8) (rest : Bytes) : ChunkCtx × Bytes :=
  match c.state with
  | .size => (chunkScanSizeLine c ch, rest)
  | .ext => (chunkScanExtSig env c ch, rest)
  | .sizeLf => (chunkScanSizeLf env c ch, rest)
  | .data =>
    (chunkConsumeData env c ((ch :: rest).take c.chunkRemaining),
      (ch :: rest).drop c.chunkRemaining)
  | .dataCr | .dataLf => (chunkScanDataCrlf c ch, rest)
  | .trailer => (chunkScanTrailer c ch, rest)
  | .done | .error => (c, rest)

/-- The loop of `s3_chunk_feed`. Every step takes a byte, so a span is over after as many steps
as it has bytes. -/
def chunkFeedLoop : ℕ → ChunkCtx → Bytes → ChunkCtx
  | 0, c, _ => c
  | _ + 1, c, [] => c
  | fuel + 1, c, ch :: rest =>
    if c.ended then c
    else
      let s := chunkFeedStep env c ch rest
      chunkFeedLoop fuel s.1 s.2

/-- Feed one span to the decoder. -/
def s3ChunkFeed (c : ChunkCtx) (span : Bytes) : ChunkCtx := chunkFeedLoop env span.length c span

/-- A buffer of a request body: in memory, or spooled to a file. Reading a window of a spooled
buffer may fail. -/
inductive BodyBuf : Type where
  | memory (bytes : Bytes)
  | spooled (bytes : Bytes) (failsAt : Option ℕ)

namespace BodyBuf

/-- The part of the stream a buffer holds -/
def bytes : BodyBuf → Bytes
  | memory bs => bs
  | spooled bs _ => bs

/-- No read of the buffer fails. -/
def Readable : BodyBuf → Prop
  | memory _ => True
  | spooled _ failsAt => failsAt = none

end BodyBuf

def s3ChunkReadWindow : ℕ := 64 * 1024

/-- The loop of `s3_chunk_feed_buf` over the windows of a spooled buffer -/
def chunkFeedWindows : ℕ → ChunkCtx → Bytes → Option ℕ → ChunkCtx
  | 0, c, _, _ => c
  | fuel + 1, c, bs, failsAt =>
    if bs = [] ∨ c.ended then c
    else if failsAt = some 0 then c.fail httpInternalServerError
    else
      chunkFeedWindows fuel (s3ChunkFeed env c (bs.take s3ChunkReadWindow))
        (bs.drop s3ChunkReadWindow) (failsAt.map (· - 1))

def s3ChunkFeedBuf (c : ChunkCtx) : BodyBuf → ChunkCtx
  | .memory bs => s3ChunkFeed env c bs
  | .spooled bs failsAt => chunkFeedWindows env bs.length c bs failsAt

/-- Feed the body's buffers until one fails. -/
def s3ChunkDecDrain (c : ChunkCtx) : List BodyBuf → ChunkCtx
  | [] => c
  | b :: bufs =>
    let c := s3ChunkFeedBuf env c b
    if c.state = .error then c else s3ChunkDecDrain c bufs

def s3ChunkDecInit : ChunkCtx where
  state := .size
  curSize := 0
  sizeDigits := false
  chunkRemaining := 0
  written := []
  line := []
  trailer := ⟨[], []⟩
  httpStatus := 0
  sha := []
  prevSig := (env.verify.map S3ChunkVerify.seedSignature).getD []
  ext := []
  owed := nofun

/-- What a decode comes to: the status of an `NGX_ERROR`, or `none` for `NGX_OK`; the file; the
trailer -/
structure Decoded : Type where
  error : Option ℕ
  written : Bytes
  trailer : S3ChunkTrailer
  deriving DecidableEq

/-- `s3_chunk_dec_run`, after the drain -/
def s3ChunkDecRun (c : ChunkCtx) : Decoded :=
  { error :=
      if c.state = .error then some c.httpStatus
      else if c.state ≠ .done ∨ c.written.length ≠ env.expected then some httpBadRequest
      else none
    written := c.written
    trailer := c.trailer }

/-- Decode a whole body. -/
def s3AwsChunkedDecodeToFd (bufs : List BodyBuf) : Decoded :=
  if bufs = [] then
    { error := if env.expected ≠ 0 then some httpBadRequest else none
      written := []
      trailer := ⟨[], []⟩ }
  else s3ChunkDecRun env (s3ChunkDecDrain env (s3ChunkDecInit env) bufs)

end BrixCache
