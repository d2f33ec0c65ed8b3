import BrixCache.Lib.Wire
import BrixCache.Core.Ascii

/-!
# Request signing on a connection

`session/signing.c`, `handshake/sigver.c`, and the part of `connection/recv_process.c` that
decides which frames reach them. A `kXR_sigver` frame records what the next request must be;
the next dispatched request consumes the record. The session cipher and SHA-256 are
parameters.
-/

namespace BrixCache

/-! ## Frames -/

/-- A big-endian number -/
def beNat (bs : Bytes) : ℕ := leNat bs.reverse

/-- The `n` big-endian bytes of a number -/
def beBytes (n x : ℕ) : Bytes := (leBytes n x).reverse

/-- One request as it is read: the header, the `dlen` bytes it announces, and what a
`kXR_writev` or `kXR_chkpoint` streams behind the frame. -/
structure Frame : Type where
  hdr : Bytes
  payload : Bytes
  trailing : Bytes
  /-- `XRD_REQUEST_HDR_LEN` -/
  hdr_length : hdr.length = 24
  /-- the frame is read until its `dlen` bytes are there -/
  payload_length : payload.length = beNat (hdr.drop 20)

namespace Frame

def streamid (f : Frame) : Bytes := f.hdr.take 2

/-- `requestid`, in host order -/
def requestid (f : Frame) : ℕ := beNat ((f.hdr.drop 2).take 2)

/-- `body`, the argument block of the opcode -/
def body (f : Frame) : Bytes := (f.hdr.drop 4).take 16

def dlen (f : Frame) : ℕ := beNat (f.hdr.drop 20)

end Frame

/-- The opcodes `kXR_auth` … that the connection tells apart -/
inductive Opcode : Type where
  | auth | chmod | endsess | fattr | login | mkdir | mv | «open» | ping | chkpoint | prepare
  | protocol | rm | rmdir | write | bind | readv | pgwrite | truncate | sigver | writev | clone
  deriving DecidableEq

/-- The number of an opcode on the wire -/
def Opcode.id : Opcode → ℕ
  | auth => 3000 | chmod => 3002 | protocol => 3006 | login => 3007 | mkdir => 3008
  | mv => 3009 | «open» => 3010 | ping => 3011 | chkpoint => 3012 | rm => 3014 | rmdir => 3015
  | write => 3019 | fattr => 3020 | prepare => 3021 | endsess => 3023 | bind => 3024
  | readv => 3025 | pgwrite => 3026 | truncate => 3028 | sigver => 3029 | writev => 3031
  | clone => 3032

/-- Whether a frame carries the opcode -/
def Frame.Is (f : Frame) (op : Opcode) : Prop := f.requestid = op.id

instance (f : Frame) (op : Opcode) : Decidable (f.Is op) := inferInstanceAs (Decidable (_ = _))

/-! ## The signature -/

/-- `sig_cipher`, `sig_key` and `sig_use_iv`: what `gsi_arm_request_signing` copies -/
structure SigKey : Type where
  cipher : Bytes
  key : Bytes
  useIv : Bool

/-- The cryptography under the signature: `brix_gsi_cipher_lookup`, `brix_gsi_cipher_apply`
for decryption, and `brix_sha256` -/
structure SigCrypto (C : Type) : Type where
  lookup : Bytes → Option C
  decrypt : C → Bytes → Bool → Bytes → Option Bytes
  sha256 : Bytes → Option Bytes

/-- The bytes `brix_gsi_sigver_hash` covers -/
def sigverCovered (seqno : ℕ) (hdr payload : Bytes) (nodata : Bool) : Bytes :=
  beBytes 8 seqno ++ hdr ++ if nodata then [] else payload

def brixGsiSigverVerify {C : Type} (crypto : SigCrypto C) (c : C) (k : SigKey)
    (blob : Bytes) (seqno : ℕ) (hdr payload : Bytes) (nodata : Bool) : Bool :=
  if blob.length = 0 then false
  else
    match crypto.decrypt c k.key k.useIv blob with
    | none => false
    | some plain =>
      plain.length = 32 ∧ crypto.sha256 (sigverCovered seqno hdr payload nodata) = some plain

def exemptOps : List Opcode := [.login, .protocol, .auth, .endsess, .ping, .sigver, .bind]

def level2Ops : List Opcode :=
  [.open, .write, .pgwrite, .writev, .truncate, .mkdir, .rm, .rmdir, .mv, .chmod, .fattr,
    .chkpoint, .clone]

/-- The requests that must be signed at a level. -/
def brixGsiSigverRequired (op level : ℕ) : Bool :=
  if level ≤ 1 then false
  else if op ∈ exemptOps.map Opcode.id then false
  else if level = 2 then op ∈ level2Ops.map Opcode.id
  else true

/-! ## Session state -/

/-- `brix_ctx_sigver_t`. The key is what was armed last, `signingActive` whether it is in use. -/
structure Sigver : Type where
  armed : SigKey
  signingActive : Bool
  inheritedRequired : Bool
  lastSeqno : ℕ
  pending : Bool
  verified : Bool
  expectrid : ℕ
  sid : Bytes
  seqno : ℕ
  nodata : Bool
  blob : Bytes

/-- An error reply: `brix_send_error` with its code and its text -/
structure RootError : Type where
  code : ℕ
  msg : String
  deriving DecidableEq

def kXRArgInvalid : ℕ := 3000
def kXRInvalidRequest : ℕ := 3006
def kXRNotAuthorized : ℕ := 3010
def kXRServerError : ℕ := 3012
def kXRUnsupported : ℕ := 3013
def kXRSigVerErr : ℕ := 3022

/-- `xrdw_sigver_req_t` -/
structure SigverReq : Type where
  expectrid : ℕ
  version : ℕ
  flags : ℕ
  seqno : ℕ
  crypto : ℕ

/-- `xrdw_sigver_req_unpack`: `expectrid(2) version(1) flags(1) seqno(8) crypto(1) rsvd(3)` -/
def xrdwSigverReqUnpack (body : Bytes) : SigverReq where
  expectrid := beNat (body.take 2)
  version := beNat ((body.drop 2).take 1)
  flags := beNat ((body.drop 3).take 1)
  seqno := beNat ((body.drop 4).take 8)
  crypto := beNat ((body.drop 12).take 1)

/-- `sizeof(sig)` -/
def sigverSigMax : ℕ := 64

/-- `brix_handle_sigver`: the state it leaves, and the error it sends, if any -/
def brixHandleSigver (s : Sigver) (f : Frame) : Sigver × Option RootError :=
  let req := xrdwSigverReqUnpack f.body
  if s.signingActive then
    if req.version ≠ 0 then (s, some ⟨kXRSigVerErr, "unsupported sigver version"⟩)
    else if req.seqno ≤ s.lastSeqno then (s, some ⟨kXRNotAuthorized, "sigver replay detected"⟩)
    else
      let s := { s with lastSeqno := req.seqno }
      -- kXR_SHA256_sig under kXR_HashMask_sig, and kXR_rsaKey_sig unset
      if req.crypto % 16 = 1 ∧ req.crypto / 128 % 2 = 0 then
        if f.dlen < 32 ∨ sigverSigMax < f.dlen then
          (s, some ⟨kXRArgInvalid, "sigver body length invalid"⟩)
        else
          ({ s with
              pending := true
              expectrid := req.expectrid
              sid := f.streamid
              seqno := req.seqno
              nodata := req.flags % 2 = 1
              blob := f.payload }, none)
      else (s, some ⟨kXRSigVerErr, "unsupported sigver crypto"⟩)
  else (s, none)

section

variable {C : Type} (crypto : SigCrypto C)

/-- The signature over header and payload. -/
def brixVerifySigverSig (s : Sigver) (f : Frame) : Option RootError :=
  match crypto.lookup s.armed.cipher with
  | none => some ⟨kXRServerError, "signature verification failed"⟩
  | some c =>
    if brixGsiSigverVerify crypto c s.armed s.blob s.seqno f.hdr f.payload s.nodata then none
    else some ⟨kXRNotAuthorized, "signature verification failed"⟩

/-- A request behind `kXR_sigver` is verified against it. -/
def brixVerifyPendingSigver (s : Sigver) (f : Frame) : Sigver × Option RootError :=
  let s := { s with verified := false }
  if s.pending ∧ ¬ f.Is .sigver then
    let s := { s with pending := false }
    if s.signingActive then
      if s.expectrid ≠ f.requestid then
        (s, some ⟨kXRInvalidRequest, "signed request opcode mismatch"⟩)
      else if s.sid ≠ f.streamid then
        (s, some ⟨kXRInvalidRequest, "signed request streamid mismatch"⟩)
      else
        match brixVerifySigverSig crypto s f with
        | some e => (s, some e)
        | none => ({ s with verified := true }, none)
    else (s, none)
  else if f.Is .sigver then ({ s with pending := false }, none)
  else (s, none)

/-- The server's settings the connection consults -/
structure SigningConf : Type where
  securityLevel : ℕ
  signingRequired : Bool
  requirePgwrite : Bool

def brixSigningUnsignableSession (conf : SigningConf) (s : Sigver) : Option RootError :=
  if conf.signingRequired ∨ s.inheritedRequired then
    some ⟨kXRNotAuthorized, "request signing required but this session cannot sign"⟩
  else none

/-- Refuse an unsigned request that needs a signature. -/
def brixSigningEnforceLevel (conf : SigningConf) (s : Sigver) (f : Frame) : Option RootError :=
  let required := brixGsiSigverRequired f.requestid conf.securityLevel
  if conf.securityLevel = 0 then none
  else if ¬ s.signingActive then
    if required then brixSigningUnsignableSession conf s else none
  else if required then
    if ¬ s.verified then some ⟨kXRSigVerErr, "request signing required for this opcode"⟩
    else if 4 ≤ conf.securityLevel ∧ s.nodata ∧ 0 < f.dlen then
      some ⟨kXRNotAuthorized, "payload signing required in pedantic mode"⟩
    else none
  else none

/-! ## The connection -/

/-- What the handlers behind the two checks do to the signing state. Which of them a request
reaches is settled by gates outside this model. -/
inductive Onward : Type where
  /-- another handler or gate answers -/
  | answered
  /-- `brix_dispatch_signing_opcode` -/
  | signing
  /-- `gsi_arm_request_signing` at the end of an authentication -/
  | armed (k : SigKey)
  /-- `brix_handle_bind` accepts, with `request_signing` of the primary -/
  | bound (requestSigning : Bool)
  /-- `brix_handle_endsess` -/
  | ended

/-- One frame with what the rest of the server has to say about it -/
structure Arrival : Type where
  frame : Frame
  /-- the handle a write names is open for writing, with SSI or inline decompression -/
  special : Bool
  onward : Onward

/-- A connection with its signing state -/
structure SignedConn : Type where
  sigver : Sigver
  isBound : Bool
  /-- the receive loop has ended -/
  closed : Bool

/-- What becomes of a frame -/
inductive FrameFate : Type where
  /-- the header phase sent an error and went on -/
  | refused (e : RootError)
  /-- the payload goes to the file in chunks, without a dispatch -/
  | streamed
  /-- the connection ends -/
  | closed
  | rejected (e : RootError)
  /-- the request passed both checks; `e` is what the signing handler sent, if anything -/
  | passed (e : Option RootError)
  deriving DecidableEq

/-- What lies behind the two checks, as far as it touches the signing state -/
def dispatchOnward (x : SignedConn) (a : Arrival) : SignedConn × Option RootError :=
  match a.onward with
  | .answered => (x, none)
  | .signing =>
    if a.frame.Is .sigver then
      let r := brixHandleSigver x.sigver a.frame
      ({ x with sigver := r.1 }, r.2)
    else (x, none)
  | .armed k =>
    if a.frame.Is .auth then
      ({ x with sigver := { x.sigver with armed := k, signingActive := true } }, none)
    else (x, none)
  | .bound requestSigning =>
    if a.frame.Is .bind then
      ({ x with sigver := { x.sigver with inheritedRequired := requestSigning }, isBound := true },
        none)
    else (x, none)
  | .ended =>
    if a.frame.Is .endsess then
      ({ x with sigver := { x.sigver with signingActive := false } }, none)
    else (x, none)

def brixDispatch (conf : SigningConf) (x : SignedConn) (a : Arrival) : SignedConn × FrameFate :=
  let v := brixVerifyPendingSigver crypto x.sigver a.frame
  let x := { x with sigver := v.1 }
  match v.2 with
  | some e => (x, .rejected e)
  | none =>
    match brixSigningEnforceLevel conf x.sigver a.frame with
    | some e => (x, .rejected e)
    | none => ((dispatchOnward x a).1, .passed (dispatchOnward x a).2)

def brixWriteStreamChunk : ℕ := 8 * 1024 * 1024

def brixMaxWritePayload : ℕ := 16 * 1024 * 1024

def brixMaxPayloadForRequest (reqid : ℕ) : ℕ :=
  if reqid = Opcode.write.id then 1024 * 1024 * 1024
  else if reqid ∈ [Opcode.pgwrite, .writev, .chkpoint].map Opcode.id then brixMaxWritePayload
  else if reqid = Opcode.readv.id then (1024 + 1) * 16
  else if reqid = Opcode.auth.id then 32 * 1024
  else if reqid = Opcode.prepare.id then 64 * 1024
  else if reqid = Opcode.fattr.id then 4096 + 1 + 16 * (2 + 248 + 1 + 4 + 65536)
  else 4096 + 64

/-- `brix_recv_write_hdr_hook` answers: a write whose data would ride another connection -/
def writeHdrRefused (x : SignedConn) (f : Frame) : Prop :=
  f.Is .write ∧ ¬ x.isBound ∧ (f.body.drop 12).take 1 ≠ [0]

/-- `brix_write_stream_begin` takes the write -/
def writeStreamed (conf : SigningConf) (a : Arrival) : Prop :=
  a.frame.Is .write ∧ brixWriteStreamChunk < a.frame.dlen ∧ ¬ conf.requirePgwrite ∧ ¬ a.special

instance (x : SignedConn) (f : Frame) : Decidable (writeHdrRefused x f) :=
  inferInstanceAs (Decidable (_ ∧ _))

instance (conf : SigningConf) (a : Arrival) : Decidable (writeStreamed conf a) :=
  inferInstanceAs (Decidable (_ ∧ _))

/-- `brix_recv_after_header` and `brix_recv_after_payload`: one frame received -/
def recvFrame (conf : SigningConf) (x : SignedConn) (a : Arrival) : SignedConn × FrameFate :=
  if x.closed then (x, .closed)
  else if writeHdrRefused x a.frame then
    (x, .refused ⟨kXRUnsupported,
      "write data-path (pathid) unsupported; send data inline (pathid 0)"⟩)
  else if brixMaxPayloadForRequest a.frame.requestid < a.frame.dlen then
    ({ x with closed := true }, .closed)
  else if writeStreamed conf a then (x, .streamed)
  else if a.frame.Is .write ∧ brixMaxWritePayload < a.frame.dlen then
    ({ x with closed := true }, .closed)
  else brixDispatch crypto conf x a

end

end BrixCache
