import BrixCache.Lib.Posix
import BrixCache.Root.PgreadTrain
import BrixCache.Root.Sigver
import BrixCache.Core.Ascii

/-!
# Pages of an origin

`fs/cache/origin_pgread.c`: a cache reads a range of its origin by a page-mode read and checks every
page before it writes a byte of the frame. The origin may send anything; what the windows of a
page-mode read send comes through.
-/

namespace BrixCache

open List

/-- `brix_cache_read_range_t`, the result apart -/
structure CacheReadRange : Type where
  readOff : UInt64
  dstOff : ℕ
  want : ℕ

/-- `pg_frame_t` -/
structure OriginFrame : Type where
  resptype : UInt8
  pgdlen : ℕ
  foff : UInt64

/-- How the read of a range fails: by -2, or by -1 with the error of the task -/
inductive OriginErr : Type where
  | unsupported
  | failed (e : RootError)
  /-- with the error that the origin sent -/
  | refused (body : Bytes)
  deriving DecidableEq

/-- What is left of a range's read: how it ended, the cache file, and how much was written -/
structure OriginRead : Type where
  rc : Except OriginErr Unit
  file : Bytes
  got : ℕ

def kXRChkSumErr : ℕ := 3019

def originError (msg : String) : OriginErr := .failed ⟨kXRServerError, msg⟩

/-- `brix_cache_io_recv_exact`, of all the bytes that come before the connection ends -/
def recvExact (n : ℕ) (stream : Bytes) : Option (Bytes × Bytes) :=
  if n ≤ stream.length then some (stream.take n, stream.drop n) else none

def ntohs (bs : Bytes) : UInt16 := Wire.get bs.reverse

def be64toh (bs : Bytes) : UInt64 := Wire.get bs.reverse

/-- `brix_cache_read_response`: the status and the body -/
def cacheReadResponse (stream : Bytes) (maxBody : ℕ) :
    Except OriginErr (UInt16 × Bytes × Bytes) :=
  match recvExact 8 stream with
  | none => .error (originError "cache origin response read failed")
  | some (hdr, rest) =>
    let dlen := (ntohl (hdr.drop 4)).toNat
    if maxBody < dlen then .error (originError "cache origin response body too large")
    else
      match recvExact dlen rest with
      | none => .error (originError "cache origin response body read failed")
      | some (body, rest) => .ok (ntohs ((hdr.drop 2).take 2), body, rest)

def pgErrorIsUnsupported (body : Bytes) : Bool :=
  4 ≤ body.length ∧
    ((ntohl (body.take 4)).toNat = kXRUnsupported ∨ (ntohl (body.take 4)).toNat = kXRInvalidRequest)

/-- A response frame, header checksum compared. -/
def pgParseBody (body : Bytes) : Except OriginErr OriginFrame :=
  if ntohl (body.take 4) ≠ crc32cValue ((body.drop 4).take 20) then
    .error (.failed ⟨kXRChkSumErr, "cache origin pgread status header CRC mismatch"⟩)
  else
    let resptype := body.getD 7 0
    if resptype ≠ PgreadResp.finalResult.code ∧ resptype ≠ PgreadResp.partialResult.code then
      .error (originError "cache origin pgread returned an unknown resptype")
    else .ok ⟨resptype, (ntohl ((body.drop 12).take 4)).toNat, be64toh ((body.drop 16).take 8)⟩

/-- `pg_read_frame`: a status frame, and what comes behind it -/
def pgReadFrame (stream : Bytes) : Except OriginErr (OriginFrame × Bytes) :=
  match cacheReadResponse stream 512 with
  | .error rc => .error rc
  | .ok (status, body, rest) =>
    if status = 4003 then
      .error (if pgErrorIsUnsupported body then .unsupported else .refused body)
    else if status ≠ 4007 ∨ body.length ≠ 24 then
      .error (originError "cache origin pgread returned an invalid status frame")
    else (pgParseBody body).map fun fr => (fr, rest)

/-- A `uint32_t` -/
def pgMaxPgdlen (want : ℕ) : ℕ := (want + (want / pgPageSZ + 2) * 4) % 2 ^ 32

/-- The frame goes on where the last one ended. -/
def pgCheckFrame (rng : CacheReadRange) (got : ℕ) (fr : OriginFrame) : Except OriginErr Unit :=
  if fr.foff ≠ rng.readOff + .ofNat got then
    .error (originError "cache origin pgread returned pages for an unrequested offset")
  else if pgMaxPgdlen (rng.want - got) < fr.pgdlen then
    .error (originError "cache origin pgread returned too much data")
  else if fr.pgdlen = 0 ∧ fr.resptype = PgreadResp.partialResult.code then
    .error (originError "cache origin pgread sent an empty partial frame")
  else .ok ()

/-- A file offset as the decoder takes it -/
def pgFileOff (off : UInt64) : ℤ := off.toInt64.toInt

/-- `pg_consume_pages`, into a sink that tells where a write fails after how many bytes: the file
and how much of the frame was written, then how it went, with the rest of the stream -/
def pgConsumePages (sink : ℕ → Bytes → Except ℕ Unit) (rng : CacheReadRange) (fr : OriginFrame)
    (file : Bytes) (got : ℕ) (stream : Bytes) :
    Bytes × ℕ × Except OriginErr Bytes :=
  match recvExact fr.pgdlen stream with
  | none => (file, 0, .error (originError "cache origin pgread page read failed"))
  | some (pg, rest) =>
    let d := xrdpPgDecode pg (pgFileOff fr.foff) fr.pgdlen
    match d.rc with
    | .bytes n =>
      if rng.want - got < n then
        (file, 0, .error (originError "cache origin pgread returned too much data"))
      else
        match sink (rng.dstOff + got) d.dst with
        | .ok () => (File.pwrite 0 file (rng.dstOff + got) d.dst, n, .ok rest)
        | .error k =>
          (File.pwrite 0 file (rng.dstOff + got) (d.dst.take k), 0,
            .error (.failed ⟨3007, "cache file write failed"⟩))
    | .mismatch =>
      (file, 0, .error (.failed ⟨kXRChkSumErr,
        "cache origin pgread CRC mismatch at file offset " ++ toString d.badOff⟩))
    | _ => (file, 0, .error (originError "cache origin pgread returned malformed page framing"))

/-- The pages of a frame that has any -/
def pgFramePages (sink : ℕ → Bytes → Except ℕ Unit) (rng : CacheReadRange) (fr : OriginFrame)
    (file : Bytes) (got : ℕ) (stream : Bytes) :
    Bytes × ℕ × Except OriginErr Bytes :=
  if 0 < fr.pgdlen then pgConsumePages sink rng fr file got stream else (file, 0, .ok stream)

variable {sink : ℕ → Bytes → Except ℕ Unit} {rng : CacheReadRange} {fr : OriginFrame}
  {file stream rest body : Bytes} {got : ℕ}

theorem recvExact_eq_some {n : ℕ} {bs : Bytes} (h : recvExact n stream = some (bs, rest)) :
    stream = bs ++ rest ∧ bs.length = n := by
  rw [recvExact] at h
  split at h
  · next hle =>
    obtain ⟨rfl, rfl⟩ := Prod.mk.inj (Option.some.inj h)
    exact ⟨(take_append_drop n stream).symm, length_take_of_le hle⟩
  · cases h

theorem cacheReadResponse_eq_ok {maxBody : ℕ} {status : UInt16}
    (h : cacheReadResponse stream maxBody = .ok (status, body, rest)) :
    ∃ hdr, stream = hdr ++ body ++ rest ∧ hdr.length = 8 := by
  rw [cacheReadResponse] at h
  split at h
  · cases h
  · next hdr tail hhdr =>
    obtain ⟨rfl, hlen⟩ := recvExact_eq_some hhdr
    dsimp only at h
    split at h
    · cases h
    · split at h
      · cases h
      · next hbody =>
        obtain ⟨rfl, -⟩ := recvExact_eq_some hbody
        obtain ⟨-, h⟩ := Prod.mk.inj (Except.ok.inj h)
        obtain ⟨rfl, rfl⟩ := Prod.mk.inj h
        exact ⟨hdr, by rw [append_assoc], hlen⟩

theorem pgReadFrame_eq_ok (h : pgReadFrame stream = .ok (fr, rest)) :
    ∃ hdr body, stream = hdr ++ body ++ rest ∧ (hdr ++ body).length = pgreadStatusSize ∧
      pgParseBody body = .ok fr := by
  rw [pgReadFrame] at h
  split at h
  · cases h
  · next hresponse =>
    obtain ⟨hdr, rfl, hlen⟩ := cacheReadResponse_eq_ok hresponse
    split at h
    · cases h
    split at h
    · cases h
    next body _ _ hshape =>
    cases hparse : pgParseBody body with
    | error rc => simp [hparse, Except.map] at h
    | ok fr' =>
      simp only [hparse, Except.map, Except.ok.injEq, Prod.mk.injEq] at h
      obtain ⟨rfl, rfl⟩ := h
      refine ⟨hdr, body, rfl, ?_, hparse⟩
      rw [length_append, hlen, not_not.mp (not_or.mp hshape).2]
      rfl

theorem xrdpPgDecode_eq_bytes {pg : Bytes} {off : ℤ} {dstcap n : ℕ}
    (h : (xrdpPgDecode pg off dstcap).rc = .bytes n) :
    (xrdpPgDecode pg off dstcap).dst.length = n ∧
      xrdpPgEncode (xrdpPgDecode pg off dstcap).dst off = pg := by
  rw [xrdpPgDecode] at h ⊢
  split at h
  · cases h
  · next hoff =>
    obtain ⟨src, hrun, hn, henc⟩ := xrdpPgEncode_of_decodeLoop h
    rw [if_neg hoff, hrun]
    exact ⟨by rw [hn, length_append], henc⟩

/-- The pages of one frame: nothing is written, or all of them were right, and at least the front of
them is written. -/
theorem pgFramePages_checked (sink : ℕ → Bytes → Except ℕ Unit) (rng : CacheReadRange)
    (fr : OriginFrame) (file : Bytes) (got : ℕ) (stream : Bytes) :
    ((pgFramePages sink rng fr file got stream).1 = file ∧
      ∃ rc, (pgFramePages sink rng fr file got stream).2.2 = .error rc) ∨
    ∃ data rest, stream = xrdpPgEncode data (pgFileOff fr.foff) ++ rest ∧
      (xrdpPgEncode data (pgFileOff fr.foff)).length = fr.pgdlen ∧
      data.length ≤ rng.want - got ∧
      ((∃ k rc, (pgFramePages sink rng fr file got stream).1 =
          File.pwrite 0 file (rng.dstOff + got) (data.take k) ∧
        (pgFramePages sink rng fr file got stream).2.2 = .error rc) ∨
      (pgFramePages sink rng fr file got stream) =
        (File.pwrite 0 file (rng.dstOff + got) data, data.length, .ok rest)) := by
  rw [pgFramePages]
  split
  · rw [pgConsumePages]
    split
    · exact .inl ⟨rfl, _, rfl⟩
    · next pg rest hrecv =>
      obtain ⟨rfl, hlen⟩ := recvExact_eq_some hrecv
      dsimp only
      split
      · next n hrc =>
        obtain ⟨hn, hpg⟩ := xrdpPgDecode_eq_bytes hrc
        split
        · exact .inl ⟨rfl, _, rfl⟩
        · next hroom =>
          refine .inr ⟨(xrdpPgDecode pg (pgFileOff fr.foff) fr.pgdlen).dst, rest, by rw [hpg],
            by rw [hpg, hlen], by omega, ?_⟩
          split
          · exact .inr (by rw [hn])
          · exact .inl ⟨_, _, rfl, rfl⟩
      · exact .inl ⟨rfl, _, rfl⟩
      · exact .inl ⟨rfl, _, rfl⟩
  · next hzero =>
    refine .inr ⟨[], stream, by rw [xrdpPgEncode_nil, nil_append], ?_, Nat.zero_le _, .inr rfl⟩
    rw [xrdpPgEncode_nil]
    exact (Nat.eq_zero_of_not_pos hzero).symm

theorem pgFramePages_eq_ok (h : (pgFramePages sink rng fr file got stream).2.2 = .ok rest) :
    ∃ data, stream = xrdpPgEncode data (pgFileOff fr.foff) ++ rest ∧
      (xrdpPgEncode data (pgFileOff fr.foff)).length = fr.pgdlen ∧
      data.length ≤ rng.want - got ∧
      pgFramePages sink rng fr file got stream =
        (File.pwrite 0 file (rng.dstOff + got) data, data.length, .ok rest) := by
  obtain ⟨-, rc, hrc⟩ | ⟨data, rest', hstream, hlen, hroom, ⟨k, rc, -, hrc⟩ | hall⟩ :=
    pgFramePages_checked sink rng fr file got stream
  · rw [hrc] at h
    cases h
  · rw [hrc] at h
    cases h
  · rw [hall] at h
    cases h
    exact ⟨data, hstream, hlen, hroom, hall⟩

/-- The loop of `brix_cache_origin_pgread_chunk`, frame after frame -/
def originPgreadLoop (sink : ℕ → Bytes → Except ℕ Unit) (rng : CacheReadRange)
    (file : Bytes) (got : ℕ) (stream : Bytes) : OriginRead :=
  match _hframe : pgReadFrame stream with
  | .error rc =>
    -- the range cannot be read by a plain read any more
    ⟨.error (if rc = .unsupported ∧ 0 < got then
      originError "cache origin abandoned pgread mid-train" else rc), file, got⟩
  | .ok (fr, rest) =>
    match pgCheckFrame rng got fr with
    | .error rc => ⟨.error rc, file, got⟩
    | .ok () =>
      let r := pgFramePages sink rng fr file got rest
      match _hpages : r.2.2 with
      | .error rc => ⟨.error rc, r.1, got⟩
      | .ok rest =>
        if fr.resptype = PgreadResp.finalResult.code then ⟨.ok (), r.1, got + r.2.1⟩
        else originPgreadLoop sink rng r.1 (got + r.2.1) rest
termination_by stream.length
decreasing_by
  obtain ⟨hdr, body, hstream, hlen, -⟩ := pgReadFrame_eq_ok _hframe
  obtain ⟨data, htail, -⟩ := pgFramePages_eq_ok _hpages
  rw [hstream, htail, length_append, hlen, length_append, pgreadStatusSize]
  omega

/-- `brix_cache_origin_pgread_chunk`, of an origin that has page reads or not -/
def brixCacheOriginPgreadChunk (sink : ℕ → Bytes → Except ℕ Unit) (suppgrw : Bool)
    (rng : CacheReadRange) (file : Bytes) (stream : Bytes) : OriginRead :=
  if suppgrw then originPgreadLoop sink rng file 0 stream else ⟨.error .unsupported, file, 0⟩

/-! ## What is written was checked -/

/-- Frames that carry the bytes of a range from an offset on, each with its checksums -/
inductive OriginPages : UInt64 → Bytes → Bytes → Prop
  | nil (off : UInt64) : OriginPages off [] []
  | frame {off : UInt64} {hdr body data sent more : Bytes} {resptype : UInt8}
      (length : (hdr ++ body).length = pgreadStatusSize)
      (head : pgParseBody body = .ok ⟨resptype, (xrdpPgEncode data (pgFileOff off)).length, off⟩)
      (next : OriginPages (off + .ofNat data.length) sent more) :
      OriginPages off (hdr ++ body ++ xrdpPgEncode data (pgFileOff off) ++ sent) (data ++ more)

/-- What a read of a range comes to, from `got` bytes on: what is written are the first bytes of
pages that were right, and all of them if it ends well. -/
def OriginChecked (rng : CacheReadRange) (file : Bytes) (got : ℕ) (stream : Bytes)
    (r : OriginRead) : Prop :=
  ∃ sent rest data k, stream = sent ++ rest ∧ OriginPages (rng.readOff + .ofNat got) sent data ∧
    got + data.length ≤ rng.want ∧
    r.file = File.pwrite 0 file (rng.dstOff + got) (data.take k) ∧
    r.got ≤ got + (data.take k).length ∧
    (r.rc = .ok () → r.got = got + data.length ∧ data.length ≤ k)

variable {data tail : Bytes} {r : OriginRead}

theorem OriginChecked.stay {rc : Except OriginErr Unit} (hgot : got ≤ rng.want) :
    OriginChecked rng file got stream ⟨rc, file, got⟩ :=
  ⟨[], stream, [], 0, rfl, .nil _, hgot, rfl, Nat.le_refl _, fun _ => ⟨rfl, Nat.le_refl _⟩⟩

theorem pgCheckFrame_eq_ok (h : pgCheckFrame rng got fr = .ok ()) :
    fr.foff = rng.readOff + .ofNat got := by
  rw [pgCheckFrame] at h
  split at h
  · cases h
  · next hoff => exact not_not.mp hoff

theorem OriginPages.cons {sent more : Bytes} (hframe : pgReadFrame stream = .ok (fr, tail))
    (hcheck : pgCheckFrame rng got fr = .ok ())
    (htail : tail = xrdpPgEncode data (pgFileOff fr.foff) ++ rest)
    (hlen : (xrdpPgEncode data (pgFileOff fr.foff)).length = fr.pgdlen)
    (hnext : OriginPages (rng.readOff + .ofNat (got + data.length)) sent more) :
    ∃ front, (∀ rest', rest = sent ++ rest' → stream = front ++ rest') ∧
      OriginPages (rng.readOff + .ofNat got) front (data ++ more) := by
  obtain ⟨hdr, body, hstream, hhdr, hparse⟩ := pgReadFrame_eq_ok hframe
  have hoff := pgCheckFrame_eq_ok hcheck
  rw [UInt64.ofNat_add, ← UInt64.add_assoc, ← hoff] at hnext
  have hhead : pgParseBody body =
      .ok ⟨fr.resptype, (xrdpPgEncode data (pgFileOff fr.foff)).length, fr.foff⟩ := by
    rw [hlen]
    exact hparse
  rw [← hoff]
  refine ⟨_, fun rest' hrest => ?_, .frame hhdr hhead hnext⟩
  rw [hstream, htail, hrest]
  simp only [append_assoc]

theorem OriginChecked.frame (hframe : pgReadFrame stream = .ok (fr, tail))
    (hcheck : pgCheckFrame rng got fr = .ok ())
    (htail : tail = xrdpPgEncode data (pgFileOff fr.foff) ++ rest)
    (hlen : (xrdpPgEncode data (pgFileOff fr.foff)).length = fr.pgdlen)
    (h : OriginChecked rng (File.pwrite 0 file (rng.dstOff + got) data) (got + data.length) rest
      r) :
    OriginChecked rng file got stream r := by
  obtain ⟨sent, rest', more, k, hrest, hnext, hwant, hfile, hwritten, hdone⟩ := h
  obtain ⟨front, hfront, hsent⟩ := OriginPages.cons hframe hcheck htail hlen hnext
  refine ⟨front, rest', data ++ more, data.length + k, hfront rest' hrest, hsent, ?_, ?_, ?_,
    fun hok => ?_⟩
  · rw [length_append, ← Nat.add_assoc]
    exact hwant
  · rw [hfile, ← Nat.add_assoc, File.pwrite_append, take_length_add_append]
  · rw [take_length_add_append, length_append, ← Nat.add_assoc]
    exact hwritten
  · obtain ⟨hgot, hle⟩ := hdone hok
    rw [length_append]
    omega

theorem originPgreadLoop_checked (hgot : got ≤ rng.want) :
    OriginChecked rng file got stream (originPgreadLoop sink rng file got stream) := by
  fun_induction originPgreadLoop sink rng file got stream with
  | case1 => exact .stay hgot
  | case2 => exact .stay hgot
  | case3 file got stream fr tail hframe hcheck r rc hpages =>
    obtain ⟨hfile, -⟩ | ⟨data, rest, htail, hlen, hroom, ⟨k, -, hfile, -⟩ | hall⟩ :=
      pgFramePages_checked sink rng fr file got tail
    · rw [show r.1 = file from hfile]
      exact .stay hgot
    · -- the pages were right, and the sink failed on the way
      obtain ⟨front, hfront, hsent⟩ := OriginPages.cons hframe hcheck htail hlen (.nil _)
      refine ⟨front, rest, data, k, hfront rest rfl, ?_, by omega, hfile, Nat.le_add_right _ _,
        fun h => by cases h⟩
      rwa [append_nil] at hsent
    · rw [show r = _ from hall] at hpages
      cases hpages
  | case4 file got stream fr tail hframe hcheck r rest hpages hfinal =>
    obtain ⟨data, htail, hlen, hroom, hall⟩ := pgFramePages_eq_ok hpages
    rw [show r = _ from hall]
    exact .frame hframe hcheck htail hlen (.stay (by omega))
  | case5 file got stream fr tail hframe hcheck r rest hpages hmore ih =>
    obtain ⟨data, htail, hlen, hroom, hall⟩ := pgFramePages_eq_ok hpages
    rw [show r = _ from hall] at ih ⊢
    exact .frame hframe hcheck htail hlen (ih (by dsimp only; omega))

/-- **Only pages that were right are written**: whatever the origin sends and wherever the sink
fails, the range in the cache file starts with bytes that came in order, for their own offsets, in
frames and pages whose checksums are right, and no more than was asked for; and with all of them if
the read ends well. -/
theorem origin_pages_checked (sink : ℕ → Bytes → Except ℕ Unit) (suppgrw : Bool)
    (rng : CacheReadRange) (file stream : Bytes) :
    OriginChecked rng file 0 stream (brixCacheOriginPgreadChunk sink suppgrw rng file stream) := by
  rw [brixCacheOriginPgreadChunk]
  split
  · exact originPgreadLoop_checked (Nat.zero_le _)
  · exact .stay (Nat.zero_le _)

/-! ## What an honest origin sends -/

variable {sid : UInt8 × UInt8} {resptype : PgreadResp} {src : Bytes} {cur : ℕ}

theorem pgParseBody_status (off : UInt64) (n crc : UInt32)
    (hbody : body = [sid.1, sid.2, 30, resptype.code, 0, 0, 0, 0] ++ htonl n ++ htobe64 off)
    (hcrc : crc = crc32cValue body) :
    pgParseBody (htonl crc ++ body) = .ok ⟨resptype.code, n.toNat, off⟩ := by
  have hlen : body.length = 20 := by
    rw [hbody]
    simp [htobe64, pgCksz]
    rfl
  have hfront : ∀ x, (htonl x).length = 4 := htonl_length
  have hdrop : ∀ k, (htonl crc ++ body).drop (4 + k) = body.drop k := fun k => by
    rw [← drop_drop, drop_left' (hfront crc)]
  have hwidth : (body.drop 8).take 4 = htonl n := by
    rw [hbody, append_assoc]
    exact take_left' (hfront n)
  have hoff : (body.drop 12).take 8 = htobe64 off := by
    rw [hbody, drop_left' (by rw [length_append, hfront]; rfl)]
    exact take_of_length_le (by simp [htobe64]; decide)
  have hresp : (htonl crc ++ body).getD 7 0 = resptype.code := by
    rw [getD_append_right _ _ _ _ (by rw [hfront]; decide), hfront, hbody]
    rfl
  have hknown : ¬ (resptype.code ≠ PgreadResp.finalResult.code ∧
      resptype.code ≠ PgreadResp.partialResult.code) := by
    cases resptype <;> decide
  rw [pgParseBody, take_left' (hfront crc), ntohl_htonl, hdrop 0, drop_zero,
    take_of_length_le (Nat.le_of_eq hlen), if_neg (not_not_intro hcrc)]
  simp only [hresp, if_neg hknown]
  rw [hdrop 8, hdrop 12, hwidth, hoff, ntohl_htonl, be64toh, htobe64, reverse_reverse,
    Wire.get_put]

theorem recvExact_append (bs rest : Bytes) :
    recvExact bs.length (bs ++ rest) = some (bs, rest) := by
  rw [recvExact, if_pos (by simp), take_left, drop_left]

/-- `brix_build_resp_hdr`, and the body behind it -/
def respFrame (sid : UInt8 × UInt8) (status : UInt16) (body : Bytes) : Bytes :=
  [sid.1, sid.2] ++ htons status ++ htonl (.ofNat body.length) ++ body

theorem cacheReadResponse_respFrame (sid : UInt8 × UInt8) (status : UInt16) {maxBody : ℕ}
    (rest : Bytes) (hlen : body.length ≤ maxBody) (hmax : maxBody < 2 ^ 32) :
    cacheReadResponse (respFrame sid status body ++ rest) maxBody = .ok (status, body, rest) := by
  have hlong : body.length < 2 ^ 32 := Nat.lt_of_le_of_lt hlen hmax
  have hhdr := recvExact_append ([sid.1, sid.2] ++ htons status ++ htonl (.ofNat body.length))
    (body ++ rest)
  have hbody := recvExact_append body rest
  have hfront : ([sid.1, sid.2] ++ htons status).length = 4 := by
    simp [htons]
    rfl
  have hdlen : (ntohl (([sid.1, sid.2] ++ htons status ++ htonl (.ofNat body.length)).drop
      4)).toNat = body.length := by
    rw [drop_left' hfront, ntohl_htonl, UInt32.toNat_ofNat_of_lt' hlong]
  have hstatus : ntohs ((([sid.1, sid.2] ++ htons status ++
      htonl (.ofNat body.length)).drop 2).take 2) = status := by
    have htake : (([sid.1, sid.2] ++ htons status ++ htonl (.ofNat body.length)).drop 2).take 2 =
        htons status := take_left' (by simp [htons]; rfl)
    rw [htake, ntohs, htons, reverse_reverse, Wire.get_put]
  have hhdrLen : ([sid.1, sid.2] ++ htons status ++ htonl (.ofNat body.length)).length = 8 := by
    rw [length_append, hfront, htonl_length]
    rfl
  rw [hhdrLen] at hhdr
  rw [cacheReadResponse, respFrame, append_assoc _ body]
  simp only [hhdr, hdlen, hstatus, if_neg (Nat.not_lt_of_le hlen), hbody]

theorem pgReadFrame_wire (sid : UInt8 × UInt8) (f : PgreadFrame) (rest : Bytes)
    (hlen : f.data.length < 2 ^ 32) :
    pgReadFrame (f.wire sid ++ rest) =
      .ok (⟨f.resptype.code, f.data.length, .ofNat f.offset⟩, f.data ++ rest) := by
  obtain ⟨off, resptype, data⟩ := f
  generalize hbody : [sid.1, sid.2, 30, resptype.code, 0, 0, 0, 0] ++
    htonl (.ofNat data.length) ++ htobe64 (.ofNat off) = body
  have hbody24 : (htonl (crc32cValue body) ++ body).length = 24 := by
    rw [← hbody]
    simp [htobe64, pgCksz]
    rfl
  have hwire : PgreadFrame.wire sid ⟨off, resptype, data⟩ ++ rest =
      respFrame sid 4007 (htonl (crc32cValue body) ++ body) ++ (data ++ rest) := by
    rw [PgreadFrame.wire, brixBuildPgreadStatusSid, hbody, respFrame, hbody24]
    simp only [append_assoc]
    rfl
  have hresponse := @cacheReadResponse_respFrame (htonl (crc32cValue body) ++ body) sid 4007 512
    (data ++ rest) (by rw [hbody24]; decide) (by decide)
  have hparse := pgParseBody_status (.ofNat off) (.ofNat data.length) _ hbody.symm rfl
  rw [UInt32.toNat_ofNat_of_lt' hlen] at hparse
  rw [pgReadFrame, hwire, hresponse]
  simp only [hbody24, hparse]
  rfl

/-- A sink takes what is written inside the range. -/
def TakesRange (sink : ℕ → Bytes → Except ℕ Unit) (rng : CacheReadRange) : Prop :=
  ∀ off bs, off + bs.length ≤ rng.dstOff + rng.want → sink off bs = .ok ()

/-- A frame of an honest origin: the pages of some of the bytes that are still wanted -/
structure HonestFrame (rng : CacheReadRange) (got cur : ℕ) (resptype : PgreadResp)
    (src : Bytes) : Prop where
  /-- a 32-bit signed `rlen` -/
  want : rng.want < 2 ^ 31
  offset : rng.readOff + .ofNat got = .ofNat cur
  room : got + src.length ≤ rng.want
  stop : cur + src.length < 2 ^ 63
  progress : resptype = .partialResult → src ≠ []

theorem pgFileOff_ofNat (h : cur < 2 ^ 63) : pgFileOff (.ofNat cur) = cur := by
  rw [pgFileOff, UInt64.toInt64_ofNat', Int64.toInt_ofNat_of_lt h]

theorem length_xrdpPgEncode_le_max (hsrc : src.length ≤ n) (hn : n < 2 ^ 31) (cur : ℕ) :
    (xrdpPgEncode src cur).length ≤ pgMaxPgdlen n := by
  have hlen := length_xrdpPgEncode_le src cur
  have hpages : (((cur : ℤ) % pgPageSZ).toNat + src.length + pgPageSZ - 1) / pgPageSZ ≤
      n / pgPageSZ + 2 := by
    have hmod : ((cur : ℤ) % pgPageSZ).toNat < pgPageSZ := by
      rw [pgPageSZ]
      omega
    generalize ((cur : ℤ) % pgPageSZ).toNat = m at hmod ⊢
    rw [pgPageSZ] at *
    omega
  have hmul := Nat.mul_le_mul_right pgCksz hpages
  rw [pgMaxPgdlen, Nat.mod_eq_of_lt (by rw [pgPageSZ]; omega)]
  rw [pgCksz] at *
  omega

theorem length_le_xrdpPgEncode (src : Bytes) (cur : ℤ) :
    src.length ≤ (xrdpPgEncode src cur).length := by
  induction src, cur using xrdpPgEncode.induct with
  | case1 src cur hpos n ih =>
    have hn : pgDataN src.length cur = n := rfl
    rw [xrdpPgEncode, if_pos hpos]
    simp only [length_append, length_take, hn]
    rw [length_drop] at ih
    omega
  | case2 src cur hnil => omega

theorem HonestFrame.check (h : HonestFrame rng got cur resptype src) :
    pgCheckFrame rng got ⟨resptype.code, (xrdpPgEncode src cur).length, .ofNat cur⟩ = .ok () := by
  have hmax := length_xrdpPgEncode_le_max (Nat.le_sub_of_add_le' h.room)
    (by have := h.want; omega) cur
  have hempty : ¬ ((xrdpPgEncode src cur).length = 0 ∧
      resptype.code = PgreadResp.partialResult.code) := by
    rintro ⟨hnil, hcode⟩
    have hpartial : resptype = .partialResult := by
      cases resptype with
      | finalResult => cases hcode
      | partialResult => rfl
    exact h.progress hpartial (eq_nil_of_length_eq_zero
      (xrdpPgEncode_eq_nil (eq_nil_of_length_eq_zero hnil)))
  rw [pgCheckFrame, if_neg (not_not_intro h.offset.symm), if_neg (Nat.not_lt_of_le hmax),
    if_neg hempty]

theorem HonestFrame.pages (h : HonestFrame rng got cur resptype src) (hsink : TakesRange sink rng)
    (file rest : Bytes) :
    pgFramePages sink rng ⟨resptype.code, (xrdpPgEncode src cur).length, .ofNat cur⟩ file got
        (xrdpPgEncode src cur ++ rest) =
      (File.pwrite 0 file (rng.dstOff + got) src, src.length, .ok rest) := by
  have hstop := h.stop
  have hroom := h.room
  have hput := hsink (rng.dstOff + got) src (by omega)
  rw [pgFramePages]
  split
  · have hdecode : xrdpPgDecode (xrdpPgEncode src cur) cur (xrdpPgEncode src cur).length =
        ⟨.bytes src.length, src, cur⟩ := by
      have hcap := length_le_xrdpPgEncode src cur
      have hrun := xrdpPgDecodeLoop_encode (xrdpPgEncode src cur).length cur src
        (pgWalk (xrdpPgEncode src cur) cur) rfl (by simpa [pgWalk] using hcap)
        (by simp only [pgWalk, int64Max]; omega)
      rw [xrdpPgDecode, if_neg (by omega), hrun]
      simp [pgWalk]
    rw [pgConsumePages, pgFileOff_ofNat (by omega)]
    have hfits : ¬ rng.want - got < src.length := by omega
    simp only [recvExact_append, hdecode, hput, if_neg hfits]
  · next hzero =>
    obtain rfl : src = [] := eq_nil_of_length_eq_zero
      (xrdpPgEncode_eq_nil (eq_nil_of_length_eq_zero (Nat.eq_zero_of_not_pos hzero)))
    rw [xrdpPgEncode_nil]
    rfl

theorem HonestFrame.loop (h : HonestFrame rng got cur resptype src) (hsink : TakesRange sink rng)
    (sid : UInt8 × UInt8) (file rest : Bytes) :
    originPgreadLoop sink rng file got
        (PgreadFrame.wire sid ⟨cur, resptype, xrdpPgEncode src cur⟩ ++ rest) =
      if resptype = .finalResult then
        ⟨.ok (), File.pwrite 0 file (rng.dstOff + got) src, got + src.length⟩
      else originPgreadLoop sink rng (File.pwrite 0 file (rng.dstOff + got) src)
        (got + src.length) rest := by
  have hmax := length_xrdpPgEncode_le_max (Nat.le_sub_of_add_le' h.room)
    (by have := h.want; omega) cur
  have hframe := pgReadFrame_wire sid ⟨cur, resptype, xrdpPgEncode src cur⟩ rest
    (Nat.lt_of_le_of_lt hmax (Nat.mod_lt _ (by decide)))
  have hcode : resptype.code = PgreadResp.finalResult.code ↔ resptype = .finalResult := by
    cases resptype <;> decide
  rw [originPgreadLoop]
  split
  · next hfail => cases hframe.symm.trans hfail
  · next fr tail hread =>
    obtain ⟨rfl, rfl⟩ := Prod.mk.inj (Except.ok.inj (hframe.symm.trans hread))
    rw [h.check]
    dsimp only
    split
    · next hfail =>
      rw [h.pages hsink] at hfail
      cases hfail
    · next hok =>
      rw [h.pages hsink] at hok
      cases hok
      simp only [h.pages hsink, hcode]

theorem take_of_short {bs : Bytes} {n m : ℕ} (hle : n ≤ m)
    (h : ¬ ((bs.take n).length = n ∧ (bs.take n).length < m)) : bs.take m = bs.take n := by
  rw [length_take] at h
  rcases Nat.lt_or_ge n m with hlt | hge
  · rw [take_of_length_le (by omega), take_of_length_le (by omega)]
  · rw [Nat.le_antisymm hle hge]

/-- A client of the pump reads the file. -/
theorem originPgreadLoop_pump {d : PgDriver} (hd : ReadsFile file d)
    (hreads : ∀ off iov, ∃ bs, d.preadv off iov = .ok bs) (sid : UInt8 × UInt8)
    (tryWarm : ℕ → Bool) (scratch : ℕ → ℕ → UInt8) (hsink : TakesRange sink rng)
    {windows left : ℕ} (k : ℕ) (hfuel : left < windows) (hwant : rng.want < 2 ^ 31)
    (hleft : got + left = rng.want) (hoff : rng.readOff + .ofNat got = .ofNat cur)
    (hstop : cur + left < 2 ^ 63) (cache : Bytes) :
    originPgreadLoop sink rng cache got
        (brixReadWindowPump d sid tryWarm scratch windows k cur left).1.flatten =
      ⟨.ok (), File.pwrite 0 cache (rng.dstOff + got) ((file.drop cur).take left),
        got + ((file.drop cur).take left).length⟩ := by
  induction windows generalizing k cur left got cache with
  | zero => omega
  | succ windows ih =>
    have hread := pgreadWindowRead_filled hd (tryWarm k) cur (brixPgreadWindowWant cur left)
      (scratch k)
    have hle := brixPgreadWindowWant_le cur left
    rw [brixReadWindowPump]
    generalize pgreadWindowRead d (tryWarm k) cur (brixPgreadWindowWant cur left) (scratch k) = r
      at hread ⊢
    obtain ⟨-, off, iov, -, herr⟩ | ⟨hnread, hsize, hholds⟩ := hread
    · obtain ⟨bs, hbs⟩ := hreads off iov
      cases hbs.symm.trans herr
    generalize hsrc : (file.drop cur).take (brixPgreadWindowWant cur left) = src at *
    have hlen : src.length ≤ brixPgreadWindowWant cur left := by
      rw [← hsrc]
      exact length_take_le _ _
    have hroom : got + src.length ≤ rng.want := by omega
    have hend : cur + src.length < 2 ^ 63 := by omega
    simp only [brixPgreadWindowEmit, hnread, hsize, pgreadFrame_eq hholds]
    by_cases hmore : src.length = brixPgreadWindowWant cur left ∧ src.length < left
    · obtain ⟨hfull, hlt⟩ := hmore
      have hpos := @brixPgreadWindowWant_pos left (by omega) cur
      have hframe : HonestFrame rng got cur .partialResult src :=
        ⟨hwant, hoff, hroom, hend, fun _ hnil => by simp [hnil] at hfull; omega⟩
      have hsplit : (file.drop cur).take left =
          src ++ (file.drop (cur + src.length)).take (left - src.length) := by
        rw [← drop_drop, hfull]
        conv_lhs => rw [← Nat.add_sub_cancel' hle, take_add, hsrc]
      have hmore : left - src.length ≠ 0 := by omega
      have hleft' : got + src.length + (left - src.length) = rng.want := by omega
      have hoff' : rng.readOff + .ofNat (got + src.length) = .ofNat (cur + src.length) := by
        rw [UInt64.ofNat_add, ← UInt64.add_assoc, hoff, UInt64.ofNat_add]
      have hstop' : cur + src.length + (left - src.length) < 2 ^ 63 := by omega
      have hrest := @ih (got + src.length) (cur + src.length) (left - src.length) (k + 1) (by omega)
        hleft' hoff' hstop' (File.pwrite 0 cache (rng.dstOff + got) src)
      rw [if_pos ⟨hfull, hlt⟩]
      dsimp only
      rw [if_neg hmore, flatten_cons, hframe.loop hsink, if_neg (by decide), hrest, hsplit,
        ← Nat.add_assoc, File.pwrite_append, length_append, Nat.add_assoc]
    · have hall : (file.drop cur).take left = src := by
        rw [← hsrc] at hmore ⊢
        exact take_of_short hle hmore
      have hframe : HonestFrame rng got cur .finalResult src :=
        ⟨hwant, hoff, hroom, hend, fun h => by cases h⟩
      have hloop := hframe.loop hsink sid cache []
      rw [if_neg hmore]
      dsimp only
      rw [hall]
      simpa using hloop

/-- The read of a range of a file that went well: what there is of the range is in the buffer. -/
def OriginRead.served (file : Bytes) (rng : CacheReadRange) (buf : Bytes) : OriginRead :=
  let bytes := (file.drop rng.readOff.toNat).take rng.want
  ⟨.ok (), File.pwrite 0 buf rng.dstOff bytes, bytes.length⟩

theorem brixCacheOriginPgreadChunk_served {d : PgDriver} (hd : ReadsFile file d)
    (hreads : ∀ off iov, ∃ bs, d.preadv off iov = .ok bs) (hwant : rng.want < 2 ^ 31)
    (hstop : rng.readOff.toNat + rng.want < 2 ^ 63) (hsink : TakesRange sink rng)
    (sid : UInt8 × UInt8) (tryWarm : ℕ → Bool) (scratch : ℕ → ℕ → UInt8) (buf : Bytes) :
    brixCacheOriginPgreadChunk sink true rng buf
        (brixPgreadServeWindowed d sid tryWarm scratch rng.readOff.toNat rng.want).1.flatten =
      .served file rng buf := by
  have hoff : rng.readOff + .ofNat 0 = .ofNat rng.readOff.toNat := by
    rw [UInt64.ofNat_toNat]
    exact UInt64.add_zero _
  have hrun := originPgreadLoop_pump hd hreads sid tryWarm scratch hsink 0
    (Nat.lt_succ_self rng.want) hwant (Nat.zero_add _) hoff hstop buf
  rw [brixCacheOriginPgreadChunk, if_pos rfl, brixPgreadServeWindowed, hrun, Nat.zero_add,
    Nat.add_zero]
  rfl

end BrixCache
