import BrixCache.Lib.Posix
import BrixCache.Root.Sigver
import BrixCache.Core.Ascii
import Mathlib.Algebra.Group.Int.Defs
import Mathlib.Algebra.Ring.Nat

/-!
# Vector reads

`protocols/root/read/readv.c` and `readv_engine.c`, with the coalescer of
`core/compat/range_vector.c`: the response of a `kXR_readv` is laid out first, a header and room
for the bytes of every segment, and then filled. Segments that lie next to each other and carry
the same descriptor value are read at once, through the storage object of the first of them.

The response is one buffer and the pointers into it are positions. What a storage object gives is
an argument; `EINTR` is asked again and never seen here.
-/

namespace BrixCache

/-! ## The request -/

/-- `readahead_list`, its numbers in host order. -/
structure ReadaheadList : Type where
  fhandle : Bytes
  rlen : UInt32
  offset : UInt64
  fhandle_length : fhandle.length = 4

/-- Where the bytes of an open handle are, of `brix_file_t`. -/
structure OpenHandle (O : Type) : Type where
  /-- the driver's representative descriptor, or `NGX_INVALID_FILE` -/
  fd : ℤ
  /-- `sd_obj`, if it has a driver -/
  sdObj : Option O

/-- The object a read goes to: a driver's, or a descriptor wrapped into the POSIX driver. -/
inductive SdObj (O : Type) : Type where
  | driver (o : O) : SdObj O
  | posix (fd : ℤ) : SdObj O
  deriving DecidableEq

/-- A segment of the request, and where its bytes go -/
structure ReadvSegDesc (O : Type) : Type where
  fd : ℤ
  obj : Option O
  handleIndex : ℕ
  offset : ℤ
  readLength : ℕ
  headerReadLengthPtr : ℕ
  payloadPtr : ℕ

/-- `brix_byte_range_t`, both ends inclusive; `stop` is its `end`. -/
structure ByteRange : Type where
  start : ℤ
  stop : ℤ
  fd : ℤ
  handle : ℕ

def readvSegSize : ℕ := 16

def readvMaxSegs : ℕ := 1024

def readvPreadvMaxIov : ℕ := 64

/-- `NGX_MAX_OFF_T_VALUE` -/
def ngxMaxOffT : ℤ := 2 ^ 63 - 1

/-- `ngx_memcpy` into a buffer. -/
def memcpy (buf : Bytes) (dst : ℕ) (src : Bytes) : Bytes :=
  buf.take dst ++ src ++ buf.drop (dst + src.length)

namespace ReadaheadList

/-- The length a segment is served with, capped at `readv_seg_max`. -/
def readLength (segMax : ℕ) (w : ReadaheadList) : ℕ :=
  if segMax < w.rlen.toNat then segMax else w.rlen.toNat

def handleIndex (w : ReadaheadList) : ℕ := (w.fhandle.headD 0).toNat

end ReadaheadList

variable {O : Type}

/-- `brix_readv_build_descriptors` from a position of the response on: the descriptors, and the
response with the headers in it. -/
def brixReadvBuildDescriptors (files : ℕ → OpenHandle O) (segMax : ℕ) :
    ℕ → List ReadaheadList → Bytes → List (ReadvSegDesc O) × Bytes
  | _, [], buf => ([], buf)
  | cursor, w :: ws, buf =>
    let readLength := w.readLength segMax
    let buf := memcpy buf cursor w.fhandle
    let buf := memcpy buf (cursor + 4) (beBytes 4 readLength)
    let buf := memcpy buf (cursor + 8) (beBytes 8 w.offset.toNat)
    let rest := brixReadvBuildDescriptors files segMax (cursor + (readvSegSize + readLength)) ws buf
    ({ fd := (files w.handleIndex).fd
       obj := (files w.handleIndex).sdObj
       handleIndex := w.handleIndex
       offset := w.offset.toInt64.toInt
       readLength := readLength
       headerReadLengthPtr := cursor + 4
       payloadPtr := cursor + readvSegSize } :: rest.1, rest.2)

/-! ## The engine -/

/-- What `brix_readv_read_segments` reports, with the index of the segment. -/
inductive ReadvError : Type where
  /-- "readv: segment count out of range" -/
  | segmentCount : ReadvError
  /-- "negative readv offset at seg" -/
  | negativeOffset (seg : ℕ) : ReadvError
  /-- "readv offset overflow at seg" -/
  | offsetOverflow (seg : ℕ) : ReadvError
  /-- "readv I/O error at seg" -/
  | io (seg : ℕ) (e : Errno) : ReadvError
  /-- "readv past EOF at seg" -/
  | pastEof (seg : ℕ) : ReadvError

/-- The range the coalescer sees of a segment; `start - 1` ends an empty one. -/
def ReadvSegDesc.range (d : ReadvSegDesc O) : ByteRange :=
  { start := d.offset
    stop := if 0 < d.readLength then d.offset + d.readLength - 1 else d.offset - 1
    fd := d.fd
    handle := 0 }

/-- `brix_readv_build_ranges` from segment `i` on. -/
def brixReadvBuildRanges : ℕ → List (ReadvSegDesc O) → Except ReadvError (List ByteRange)
  | _, [] => .ok []
  | i, d :: ds =>
    if d.offset < 0 then .error (.negativeOffset i)
    else if 0 < d.readLength ∧ ngxMaxOffT - d.offset < d.readLength then
      .error (.offsetOverflow i)
    else
      match brixReadvBuildRanges (i + 1) ds with
      | .error e => .error e
      | .ok ranges => .ok (d.range :: ranges)

/-- How many more ranges a run of `count` takes that ends in `prev`. -/
def coalesceFrom (maxIov : ℕ) (prev : ByteRange) : List ByteRange → ℕ → ℕ
  | [], count => count
  | r :: rs, count =>
    if count < maxIov ∧ r.start = prev.stop + 1 ∧ r.fd = prev.fd then
      coalesceFrom maxIov r rs (count + 1)
    else count

def brixRangeVectorNextCoalescedRun (ranges : List ByteRange) (startIndex maxIov : ℕ) : ℕ :=
  match ranges.drop startIndex with
  | [] => 0
  | r :: rs => if maxIov = 0 then 0 else coalesceFrom maxIov r rs 1

def brixVfsEffectiveObj (obj : Option O) (fd : ℤ) : SdObj O :=
  match obj with
  | some o => .driver o
  | none => .posix fd

/-- What a storage object gives for a vector of `len` bytes in all, or how it fails. -/
abbrev Preadv (O : Type) : Type := SdObj O → ℤ → ℕ → Except Errno Bytes

/-- The bytes go to the payloads of the run in order. -/
def readvScatter : List (ReadvSegDesc O) → Bytes → Bytes → Bytes
  | [], _, buf => buf
  | d :: ds, bytes, buf =>
    readvScatter ds (bytes.drop d.readLength)
      (memcpy buf d.payloadPtr (bytes.take d.readLength))

/-- `brix_readv_read_one_run` of the run that starts with segment `i`, `first`: how many segments
it has, how many bytes, and the response. -/
def brixReadvReadOneRun (preadv : Preadv O) (segments : List (ReadvSegDesc O))
    (ranges : List ByteRange) (i : ℕ) (first : ReadvSegDesc O) (buf : Bytes) :
    Except ReadvError (ℕ × ℕ × Bytes) :=
  let buf := memcpy buf first.headerReadLengthPtr (beBytes 4 first.readLength)
  let runCount := brixRangeVectorNextCoalescedRun ranges i readvPreadvMaxIov
  let run := (segments.drop i).take runCount
  let runBytes := (run.map ReadvSegDesc.readLength).sum
  match preadv (brixVfsEffectiveObj first.obj first.fd) first.offset runBytes with
  | .error e => .error (.io i e)
  | .ok bytes =>
    if bytes.length ≠ runBytes then .error (.pastEof i)
    else .ok (runCount, runBytes, readvScatter run bytes buf)

/-- The loop of `brix_readv_read_segments` from segment `i` on: the bytes read in all and the
response. Every turn takes a segment, so as many turns as segments are enough. -/
def readvLoop (preadv : Preadv O) (segments : List (ReadvSegDesc O)) (ranges : List ByteRange) :
    ℕ → ℕ → ℕ → Bytes → Except ReadvError (ℕ × Bytes)
  | 0, _, total, buf => .ok (total, buf)
  | turns + 1, i, total, buf =>
    match segments[i]? with
    | none => .ok (total, buf)
    | some d =>
      if d.readLength = 0 then
        readvLoop preadv segments ranges turns (i + 1) total
          (memcpy buf d.headerReadLengthPtr (beBytes 4 d.readLength))
      else
        match brixReadvReadOneRun preadv segments ranges i d buf with
        | .error e => .error e
        | .ok (runCount, runBytes, buf) =>
          readvLoop preadv segments ranges turns (i + runCount) (total + runBytes) buf

/-- Read the segments, coalesced into runs. -/
def brixReadvReadSegments (preadv : Preadv O) (segments : List (ReadvSegDesc O))
    (buf : Bytes) : Except ReadvError (ℕ × Bytes) :=
  if segments.length = 0 ∨ readvMaxSegs < segments.length then .error .segmentCount
  else
    match brixReadvBuildRanges 0 segments with
    | .error e => .error e
    | .ok ranges => readvLoop preadv segments ranges segments.length 0 0 buf

/-! ## What a request is owed -/

section

variable (files : ℕ → OpenHandle O) (segMax : ℕ)

/-- The object with the bytes of a segment's handle. -/
def ownObj (w : ReadaheadList) : SdObj O :=
  brixVfsEffectiveObj (files w.handleIndex).sdObj (files w.handleIndex).fd

def readvHeader (w : ReadaheadList) : Bytes :=
  w.fhandle ++ beBytes 4 (w.readLength segMax) ++ beBytes 8 w.offset.toNat

/-- A segment's share of the response, its bytes from `obj`. -/
def readvFrame (content : SdObj O → Bytes) (obj : SdObj O) (w : ReadaheadList) :
    Bytes :=
  readvHeader segMax w ++ File.pread (content obj) w.offset.toNat (w.readLength segMax)

/-- Objects that hold these bytes, read short only at their ends. -/
def contentPreadv (content : SdObj O → Bytes) : Preadv O :=
  fun obj off len => .ok (File.pread (content obj) off.toNat len)

/-- The size of the response, `max_response_bytes`. -/
def readvResponseBytes (wire : List ReadaheadList) : ℕ :=
  (wire.map fun w => readvSegSize + w.readLength segMax).sum

/-- What `brix_handle_readv` lets through: no segment can be past the end of every file. -/
structure ReadvAdmitted (wire : List ReadaheadList) : Prop where
  nonempty : wire ≠ []
  count : wire.length ≤ readvMaxSegs
  fits : ∀ w ∈ wire, w.offset.toNat + w.readLength segMax < 2 ^ 63

/-- The segments are inside their files. -/
structure ReadvInside (content : SdObj O → Bytes) (wire : List ReadaheadList) : Prop where
  fits : ∀ obj, (content obj).length < 2 ^ 63
  inside : ∀ w ∈ wire,
    w.offset.toNat + w.readLength segMax ≤ (content (ownObj files w)).length

/-- **One positional read for each segment**: the response holds every segment's header and the
bytes of its own file, and the sum of the lengths is reported. -/
def ReadvServesOwn (content : SdObj O → Bytes) (wire : List ReadaheadList) : Prop :=
  ∀ buf, buf.length = readvResponseBytes segMax wire →
    brixReadvReadSegments (contentPreadv content)
        (brixReadvBuildDescriptors files segMax 0 wire buf).1
        (brixReadvBuildDescriptors files segMax 0 wire buf).2 =
      .ok ((wire.map (ReadaheadList.readLength segMax)).sum,
        wire.flatMap fun w => readvFrame segMax content (ownObj files w) w)

end

end BrixCache
