import BrixCache.Root.PgreadOrigin
import BrixCache.Core.Ascii

/-!
# Reading from an origin

`sd_xroot_pread` of `fs/backend/xroot/sd_xroot_io.c`: a read in strides, each of them a page-mode
read, or a plain one where the policy does not ask for checked pages, or does not require them of an
origin that has none. What the origin sends is not fixed.
-/

namespace BrixCache

open List

/-- `BRIX_CACHE_FETCH_CHUNK` -/
def cacheFetchChunk : ℕ := 1024 * 1024

/-- `BRIX_PGVERIFY_*` -/
inductive PgVerify : Type where
  | off
  | bestEffort
  /-- checked pages or an error -/
  | require
  deriving DecidableEq

/-- An origin: what can be received when a range was asked for, by the number of the request -/
structure XrootOrigin : Type where
  /-- `kXR_suppgrw` of the flags it sent -/
  suppgrw : Bool
  pgread : ℕ → CacheReadRange → Bytes
  read : ℕ → CacheReadRange → Bytes

/-- `sd_xroot_obj_state`, with the requests counted -/
structure XrootObj : Type where
  pgreadOff : Bool
  asked : ℕ

/-- The sink of a read, the memory up to an end -/
def memSink (stop off : ℕ) (bs : Bytes) : Except ℕ Unit :=
  if stop < off + bs.length then .error 0 else .ok ()

/-- The loop of `brix_cache_origin_read_chunk` -/
def originReadLoop (sink : ℕ → Bytes → Except ℕ Unit) (rng : CacheReadRange)
    (file : Bytes) (got : ℕ) (stream : Bytes) : OriginRead :=
  match _hresponse : cacheReadResponse stream cacheFetchChunk with
  | .error rc => ⟨.error rc, file, got⟩
  | .ok (status, body, rest) =>
    if status = 4003 then ⟨.error (.refused body), file, got⟩
    else if status ≠ 0 ∧ status ≠ 4000 then
      ⟨.error (originError "cache origin read returned invalid status"), file, got⟩
    else if rng.want < body.length ∨ rng.want - body.length < got then
      ⟨.error (originError "cache origin read returned too much data"), file, got⟩
    else
      match if 0 < body.length then sink (rng.dstOff + got) body else .ok () with
      | .error k =>
        ⟨.error (.failed ⟨3007, "cache file write failed"⟩),
          File.pwrite 0 file (rng.dstOff + got) (body.take k), got⟩
      | .ok () =>
        let file := File.pwrite 0 file (rng.dstOff + got) body
        if status = 0 then ⟨.ok (), file, got + body.length⟩
        else originReadLoop sink rng file (got + body.length) rest
termination_by stream.length
decreasing_by
  obtain ⟨hdr, hstream, hlen⟩ := cacheReadResponse_eq_ok _hresponse
  rw [hstream, length_append, length_append, hlen]
  omega

/-- `xroot_read_range` -/
def xrootReadRange (o : XrootOrigin) (verify : PgVerify)
    (sink : ℕ → Bytes → Except ℕ Unit) (rng : CacheReadRange) (st : XrootObj)
    (file : Bytes) : OriginRead × XrootObj :=
  if verify = .off ∨ st.pgreadOff then
    (originReadLoop sink rng file 0 (o.read st.asked rng), { st with asked := st.asked + 1 })
  else
    let r := brixCacheOriginPgreadChunk sink o.suppgrw rng file (o.pgread st.asked rng)
    match r.rc with
    | .error .unsupported =>
      if verify = .require then
        ({ r with rc := .error (.failed ⟨kXRUnsupported,
            "origin cannot page-read (kXR_pgread) and the store line says verify_pages=require"⟩) },
          { st with asked := st.asked + 1 })
      else
        (originReadLoop sink rng r.file 0 (o.read (st.asked + 1) rng), ⟨true, st.asked + 2⟩)
    | _ => (r, { st with asked := st.asked + 1 })

/-- The bytes of a stride -/
def xrootWant (left : ℕ) : ℕ := if cacheFetchChunk < left then cacheFetchChunk else left

theorem xrootWant_le (left : ℕ) : xrootWant left ≤ left ∧ xrootWant left ≤ cacheFetchChunk := by
  rw [xrootWant]
  split <;> omega

theorem xrootWant_pos {left : ℕ} (h : 0 < left) : 0 < xrootWant left := by
  rw [xrootWant, cacheFetchChunk]
  split <;> omega

/-- `sd_xroot_pread` from `done` bytes on: the bytes read, or none with `EIO`, the handle, and the
buffer -/
def sdXrootPread (o : XrootOrigin) (verify : PgVerify) (off : UInt64) (len done : ℕ)
    (st : XrootObj) (buf : Bytes) : Option ℕ × XrootObj × Bytes :=
  if _h : done < len then
    let want := xrootWant (len - done)
    let r := xrootReadRange o verify (memSink (done + want)) ⟨off + .ofNat done, done, want⟩ st buf
    match r.1.rc with
    | .error _ => (none, r.2, r.1.file)
    | .ok () =>
      if _hshort : r.1.got < want then (some (done + r.1.got), r.2, r.1.file)
      else sdXrootPread o verify off len (done + r.1.got) r.2 r.1.file
  else (some done, st, buf)
termination_by len - done
decreasing_by
  have hpos : 0 < xrootWant (len - done) := xrootWant_pos (Nat.sub_pos_of_lt _h)
  have hgot := Nat.le_of_not_lt _hshort
  exact Nat.sub_lt_sub_left _h (Nat.lt_add_of_pos_right (Nat.lt_of_lt_of_le hpos hgot))

variable {o : XrootOrigin} {verify : PgVerify} {sink : ℕ → Bytes → Except ℕ Unit}
  {rng : CacheReadRange} {st st' : XrootObj} {file stream buf buf' : Bytes} {got n : ℕ}

/-! ## Falling back -/

theorem pgFramePages_ne_unsupported {fr : OriginFrame} :
    (pgFramePages sink rng fr file got stream).2.2 ≠ .error .unsupported := by
  rw [pgFramePages, pgConsumePages]
  split
  · split
    · simp [originError]
    · dsimp only
      split
      · split
        · simp [originError]
        · split <;> simp
      · simp
      · simp [originError]
  · simp

theorem pgCheckFrame_ne_unsupported {fr : OriginFrame} :
    pgCheckFrame rng got fr ≠ .error .unsupported := by
  rw [pgCheckFrame]
  split
  · simp [originError]
  · split
    · simp [originError]
    · split <;> simp [originError]

theorem pgFramePages_progress {fr : OriginFrame} {rest tail : Bytes}
    (hframe : pgReadFrame stream = .ok (fr, tail)) (hcheck : pgCheckFrame rng got fr = .ok ())
    (hpages : (pgFramePages sink rng fr file got tail).2.2 = .ok rest)
    (hmore : fr.resptype ≠ PgreadResp.finalResult.code) :
    0 < (pgFramePages sink rng fr file got tail).2.1 := by
  obtain ⟨-, body, -, -, hparse⟩ := pgReadFrame_eq_ok hframe
  obtain ⟨data, -, hlen, -, hall⟩ := pgFramePages_eq_ok hpages
  have hpartial : fr.resptype = PgreadResp.partialResult.code := by
    rw [pgParseBody] at hparse
    split at hparse
    · cases hparse
    · dsimp only at hparse
      split at hparse
      · cases hparse
      · next hknown =>
        cases hparse
        exact not_not.mp fun hne => hknown ⟨hmore, hne⟩
  have hpos : fr.pgdlen ≠ 0 := fun hzero => by
    rw [pgCheckFrame] at hcheck
    split at hcheck
    · cases hcheck
    · split at hcheck
      · cases hcheck
      · rw [if_pos ⟨hzero, hpartial⟩] at hcheck
        cases hcheck
  rw [hall]
  refine Nat.pos_of_ne_zero fun hnil => hpos ?_
  rw [← hlen, eq_nil_of_length_eq_zero hnil, xrdpPgEncode_nil, length_nil]

theorem originPgreadLoop_unsupported
    (h : (originPgreadLoop sink rng file got stream).rc = .error .unsupported) :
    (originPgreadLoop sink rng file got stream).file = file ∧ got = 0 := by
  fun_induction originPgreadLoop sink rng file got stream with
  | case1 file got stream rc hframe =>
    dsimp only at h ⊢
    split at h
    · simp [originError] at h
    · next hlate =>
      exact ⟨rfl, Nat.eq_zero_of_not_pos fun hgot => hlate ⟨Except.error.inj h, hgot⟩⟩
  | case2 file got stream fr rest hframe rc hcheck =>
    obtain rfl := Except.error.inj h
    exact absurd hcheck pgCheckFrame_ne_unsupported
  | case3 file got stream fr rest hframe hcheck r rc hpages =>
    obtain rfl := Except.error.inj h
    exact absurd hpages pgFramePages_ne_unsupported
  | case4 => cases h
  | case5 file got stream fr rest hframe hcheck r rest' hpages hmore ih =>
    have hpos : 0 < r.2.1 := pgFramePages_progress hframe hcheck hpages hmore
    have hzero := (ih h).2
    omega

theorem brixCacheOriginPgreadChunk_unsupported {suppgrw : Bool}
    (h : (brixCacheOriginPgreadChunk sink suppgrw rng file stream).rc = .error .unsupported) :
    (brixCacheOriginPgreadChunk sink suppgrw rng file stream).file = file := by
  rw [brixCacheOriginPgreadChunk] at h ⊢
  by_cases hsupp : suppgrw = true
  · rw [if_pos hsupp] at h ⊢
    exact (originPgreadLoop_unsupported h).1
  · rw [if_neg hsupp]

/-- **A read that falls back is the plain read**, over a buffer in which nothing was written,
whatever the origin sent before. Behind a page that came, "unsupported" is an error. -/
theorem xrootReadRange_fallsBack (o : XrootOrigin) (verify : PgVerify)
    (sink : ℕ → Bytes → Except ℕ Unit) (rng : CacheReadRange) (st : XrootObj)
    (file : Bytes) (hon : st.pgreadOff = false)
    (h : (xrootReadRange o verify sink rng st file).2.pgreadOff = true) :
    (xrootReadRange o verify sink rng st file).1 =
        originReadLoop sink rng file 0 (o.read (st.asked + 1) rng) ∧
      ∀ (buf : Bytes) (got : ℕ) (stream : Bytes), 0 < got →
        (originPgreadLoop sink rng buf got stream).rc ≠ .error .unsupported := by
  refine ⟨?_, fun buf got stream hgot hrc => Nat.ne_of_gt hgot (originPgreadLoop_unsupported hrc).2⟩
  rw [xrootReadRange] at h ⊢
  split at h
  · cases hon.symm.trans h
  · next hpaged =>
    rw [if_neg hpaged]
    dsimp only at h ⊢
    split at h
    · next hrc =>
      split at h
      · cases hon.symm.trans h
      · next hreq => rw [if_neg hreq, brixCacheOriginPgreadChunk_unsupported hrc]
    · cases hon.symm.trans h

/-- An origin that claims page-mode reads, and answers one with `kXR_Unsupported` -/
def refusingOrigin : XrootOrigin :=
  ⟨true, fun _ _ => respFrame (7, 9) 4003 (htonl (.ofNat kXRUnsupported)),
    fun _ _ => respFrame (7, 9) 0 [8]⟩

theorem xrootReadRange_fallsBack_refused :
    (xrootReadRange refusingOrigin .bestEffort (memSink 4) ⟨0, 0, 4⟩ ⟨false, 0⟩ []).1 =
      originReadLoop (memSink 4) ⟨0, 0, 4⟩ [] 0 (respFrame (7, 9) 0 [8]) :=
  (xrootReadRange_fallsBack refusingOrigin .bestEffort (memSink 4) ⟨0, 0, 4⟩ ⟨false, 0⟩ [] rfl
    (by decide +kernel)).1

/-! ## The file arrives -/

/-- An answer to a plain read, in pieces of these bytes -/
def ReadServed (bytes stream : Bytes) : Prop :=
  ∃ sid front last, (∀ b ∈ front ++ [last], b.length ≤ cacheFetchChunk) ∧
    front.flatten ++ last = bytes ∧
    stream = (front.map (respFrame sid 4000)).flatten ++ respFrame sid 0 last

/-- An answer to a page-mode read: the windows of a file that can be read -/
def PagesServed (file : Bytes) (rng : CacheReadRange) (stream : Bytes) : Prop :=
  ∃ d sid tryWarm scratch, ReadsFile file d ∧ (∀ off iov, ∃ bs, d.preadv off iov = .ok bs) ∧
    stream = (brixPgreadServeWindowed d sid tryWarm scratch rng.readOff.toNat rng.want).1.flatten

/-- An answer of an origin that has no page-mode reads -/
def PagesRefused (stream : Bytes) : Prop :=
  ∃ sid body, body.length ≤ 512 ∧ pgErrorIsUnsupported body ∧ stream = respFrame sid 4003 body

/-- An origin that has the file, with page-mode reads or without -/
structure XrootOrigin.Serves (o : XrootOrigin) (file : Bytes) : Prop where
  read : ∀ k rng, ReadServed ((file.drop rng.readOff.toNat).take rng.want) (o.read k rng)
  pgread : o.suppgrw = true →
    ∀ k rng, PagesServed file rng (o.pgread k rng) ∨ PagesRefused (o.pgread k rng)

/-- An origin that never refuses a page-mode read -/
def XrootOrigin.HasPages (o : XrootOrigin) (file : Bytes) : Prop :=
  o.suppgrw = true ∧ ∀ k rng, PagesServed file rng (o.pgread k rng)

theorem originReadLoop_respFrame (sid : UInt8 × UInt8) {status : UInt16} {body : Bytes}
    (hstatus : status = 0 ∨ status = 4000) (hsink : TakesRange sink rng)
    (hfits : body.length ≤ cacheFetchChunk) (hwant : got + body.length ≤ rng.want)
    (file rest : Bytes) :
    originReadLoop sink rng file got (respFrame sid status body ++ rest) =
      if status = 0 then ⟨.ok (), File.pwrite 0 file (rng.dstOff + got) body, got + body.length⟩
      else originReadLoop sink rng (File.pwrite 0 file (rng.dstOff + got) body)
        (got + body.length) rest := by
  have hresponse := cacheReadResponse_respFrame sid status rest hfits (by decide)
  have hput : (if 0 < body.length then sink (rng.dstOff + got) body else .ok ()) = .ok () := by
    rw [hsink _ _ (by omega), ite_self]
  have hroom : ¬ (rng.want < body.length ∨ rng.want - body.length < got) := by omega
  have herror : status ≠ 4003 := by rcases hstatus with rfl | rfl <;> decide
  have hknown : ¬ (status ≠ 0 ∧ status ≠ 4000) := fun h => hstatus.elim h.1 h.2
  rw [originReadLoop]
  split
  · next hfail => cases hresponse.symm.trans hfail
  · next hread =>
    obtain ⟨rfl, h⟩ := Prod.mk.inj (Except.ok.inj (hresponse.symm.trans hread))
    obtain ⟨rfl, rfl⟩ := Prod.mk.inj h
    rw [if_neg herror, if_neg hknown, if_neg hroom, hput]

theorem originReadLoop_served {sid : UInt8 × UInt8} {front : List Bytes} {last : Bytes}
    (hsink : TakesRange sink rng) (hfits : ∀ b ∈ front ++ [last], b.length ≤ cacheFetchChunk)
    (hwant : got + (front.flatten ++ last).length ≤ rng.want) (file : Bytes) :
    originReadLoop sink rng file got
        ((front.map (respFrame sid 4000)).flatten ++ respFrame sid 0 last) =
      ⟨.ok (), File.pwrite 0 file (rng.dstOff + got) (front.flatten ++ last),
        got + (front.flatten ++ last).length⟩ := by
  induction front generalizing got file with
  | nil =>
    have hlast := originReadLoop_respFrame sid (.inl rfl) hsink (hfits last (by simp)) hwant file
      []
    simpa using hlast
  | cons b front ih =>
    simp only [flatten_cons, append_assoc, length_append] at hwant
    have hfirst := originReadLoop_respFrame sid (.inr rfl) hsink (hfits b (by simp))
      (show got + b.length ≤ rng.want by omega) file
      ((front.map (respFrame sid 4000)).flatten ++ respFrame sid 0 last)
    have hrest := ih (fun b' hb' => hfits b' (mem_cons_of_mem _ hb'))
      (show got + b.length + (front.flatten ++ last).length ≤ rng.want by
        rw [length_append]
        omega) (File.pwrite 0 file (rng.dstOff + got) b)
    rw [map_cons, flatten_cons, append_assoc, hfirst, if_neg (by decide), hrest,
      ← Nat.add_assoc, File.pwrite_append, flatten_cons, append_assoc, Nat.add_assoc,
      ← length_append]

theorem originPgreadLoop_refused (h : PagesRefused stream) :
    originPgreadLoop sink rng file 0 stream = ⟨.error .unsupported, file, 0⟩ := by
  obtain ⟨sid, body, hlen, hunsupported, rfl⟩ := h
  have hresponse := cacheReadResponse_respFrame sid 4003 [] hlen (by decide)
  rw [append_nil] at hresponse
  have hframe : pgReadFrame (respFrame sid 4003 body) = .error .unsupported := by
    rw [pgReadFrame, hresponse]
    simp [hunsupported]
  rw [originPgreadLoop]
  split
  · next hfail =>
    obtain rfl := Except.error.inj (hframe.symm.trans hfail)
    rfl
  · next hread => cases hframe.symm.trans hread

/-- A range is served. -/
theorem xrootReadRange_served (hserves : o.Serves file)
    (hpages : verify = .require → o.HasPages file) (hsink : TakesRange sink rng)
    (hwant : rng.want ≤ cacheFetchChunk) (hstop : rng.readOff.toNat + rng.want < 2 ^ 63)
    (hon : verify = .require → st.pgreadOff = false) (buf : Bytes) :
    (xrootReadRange o verify sink rng st buf).1 = .served file rng buf ∧
      (verify = .require → (xrootReadRange o verify sink rng st buf).2.pgreadOff = false) := by
  have hplain : ∀ k, originReadLoop sink rng buf 0 (o.read k rng) = .served file rng buf := by
    intro k
    obtain ⟨sid, front, last, hfits, hbytes, hstream⟩ := hserves.read k rng
    have hroom : 0 + (front.flatten ++ last).length ≤ rng.want := by
      rw [hbytes, Nat.zero_add]
      exact length_take_le _ _
    rw [hstream, originReadLoop_served hsink hfits hroom, hbytes, Nat.zero_add, Nat.add_zero]
    rfl
  have hpaged : ∀ stream, PagesServed file rng stream →
      brixCacheOriginPgreadChunk sink true rng buf stream = .served file rng buf := by
    rintro stream ⟨d, sid, tryWarm, scratch, hd, hreads, rfl⟩
    have hsmall : cacheFetchChunk < 2 ^ 31 := by decide
    exact brixCacheOriginPgreadChunk_served hd hreads (Nat.lt_of_le_of_lt hwant hsmall) hstop hsink
      sid tryWarm scratch buf
  have hanswer : brixCacheOriginPgreadChunk sink o.suppgrw rng buf (o.pgread st.asked rng) =
        .served file rng buf ∨
      brixCacheOriginPgreadChunk sink o.suppgrw rng buf (o.pgread st.asked rng) =
        ⟨.error .unsupported, buf, 0⟩ ∧ verify ≠ .require := by
    by_cases hreq : verify = .require
    · obtain ⟨hsupp, hall⟩ := hpages hreq
      rw [hsupp]
      exact .inl (hpaged _ (hall _ _))
    · by_cases hsupp : o.suppgrw = true
      · rw [hsupp]
        refine (hserves.pgread hsupp st.asked rng).imp (hpaged _) fun hrefused => ?_
        exact ⟨originPgreadLoop_refused hrefused, hreq⟩
      · rw [(Bool.not_eq_true _).mp hsupp]
        exact .inr ⟨rfl, hreq⟩
  rw [xrootReadRange]
  by_cases hoff : verify = .off ∨ st.pgreadOff = true
  · rw [if_pos hoff]
    exact ⟨hplain _, fun hreq => hon hreq⟩
  · rw [if_neg hoff]
    obtain hserved | ⟨hunsupported, hreq⟩ := hanswer
    · simp only [hserved, OriginRead.served]
      exact ⟨trivial, fun hreq => hon hreq⟩
    · simp only [hunsupported, if_neg hreq]
      exact ⟨hplain _, fun h => absurd h hreq⟩

theorem memSink_takes (off : UInt64) (done want : ℕ) :
    TakesRange (memSink (done + want)) ⟨off, done, want⟩ :=
  fun _ _ h => if_neg (Nat.not_lt_of_le h)

theorem stride_served {off : UInt64} {len done : ℕ} (hserves : o.Serves file)
    (hpages : verify = .require → o.HasPages file) (hstop : off.toNat + len < 2 ^ 63)
    (hon : verify = .require → st.pgreadOff = false) (hlt : done < len) (buf : Bytes)
    {r : OriginRead × XrootObj}
    (hr : r = xrootReadRange o verify (memSink (done + xrootWant (len - done)))
      ⟨off + .ofNat done, done, xrootWant (len - done)⟩ st buf) :
    r.1.rc = .ok () ∧
      r.1.file =
        File.pwrite 0 buf done ((file.drop (off.toNat + done)).take (xrootWant (len - done))) ∧
      r.1.got = ((file.drop (off.toNat + done)).take (xrootWant (len - done))).length ∧
      (verify = .require → r.2.pgreadOff = false) := by
  have hwant := xrootWant_le (len - done)
  have hoff : (off + .ofNat done).toNat = off.toNat + done := by
    rw [UInt64.toNat_add, UInt64.toNat_ofNat_of_lt' (show done < 2 ^ 64 by omega),
      Nat.mod_eq_of_lt (by omega)]
  obtain ⟨hserved, hkeep⟩ := @xrootReadRange_served o verify _
    ⟨off + .ofNat done, done, xrootWant (len - done)⟩ st file hserves hpages
    (memSink_takes _ done _) hwant.2 (by dsimp only; rw [hoff]; omega) hon buf
  rw [← hr] at hserved hkeep
  rw [hserved, OriginRead.served, hoff]
  exact ⟨rfl, rfl, rfl, hkeep⟩

/-- An origin that sends a file in memory, checked or not -/
def fileOrigin (file : Bytes) : XrootOrigin where
  suppgrw := true
  pgread _ rng := (brixPgreadServeWindowed (fileDriver file) (7, 9) (fun _ => true) (fun _ _ => 0)
    rng.readOff.toNat rng.want).1.flatten
  read _ rng := respFrame (7, 9) 0 ((file.drop rng.readOff.toNat).take rng.want)

theorem fileOrigin_pagesServed (file : Bytes) (k : ℕ) (rng : CacheReadRange) :
    PagesServed file rng ((fileOrigin file).pgread k rng) :=
  ⟨_, _, _, _, readsFile_fileDriver file, fun _ _ => ⟨_, rfl⟩, rfl⟩

theorem fileOrigin_serves (hfile : file.length ≤ cacheFetchChunk) :
    (fileOrigin file).Serves file where
  read k rng := by
    refine ⟨_, [], _, fun b hb => ?_, rfl, rfl⟩
    obtain rfl := mem_singleton.mp hb
    refine Nat.le_trans (length_take_le' _ _) (Nat.le_trans ?_ hfile)
    rw [length_drop]
    exact Nat.sub_le _ _
  pgread _ k rng := .inl (fileOrigin_pagesServed file k rng)

/-- The rest of a read, from what is done on -/
theorem sdXrootPread_from (hserves : o.Serves file) (hpages : verify = .require → o.HasPages file)
    {off : UInt64} {len done : ℕ} (hstop : off.toNat + len < 2 ^ 63) (hle : done ≤ len)
    (hon : verify = .require → st.pgreadOff = false) (buf : Bytes) :
    ∃ st', sdXrootPread o verify off len done st buf =
      (some (done + ((file.drop (off.toNat + done)).take (len - done)).length), st',
        File.pwrite 0 buf done ((file.drop (off.toNat + done)).take (len - done))) := by
  fun_induction sdXrootPread o verify off len done st buf with
  | case1 done st buf hlt want r rc hrc =>
    obtain ⟨hok, -⟩ := stride_served hserves hpages hstop hon hlt buf (Eq.refl r)
    cases hrc.symm.trans hok
  | case2 done st buf hlt want r hrc hshort =>
    obtain ⟨-, hfile, hgot, -⟩ := stride_served hserves hpages hstop hon hlt buf (Eq.refl r)
    have hall : (file.drop (off.toNat + done)).take (len - done) =
        (file.drop (off.toNat + done)).take want :=
      take_of_short (xrootWant_le (len - done)).1 fun h => Nat.ne_of_lt (hgot ▸ hshort) h.1
    exact ⟨r.2, by rw [hall, hgot, hfile]⟩
  | case3 done st buf hlt want r hrc hfull ih =>
    have hwant : want ≤ len - done := (xrootWant_le (len - done)).1
    obtain ⟨-, hfile, hgot, hkeep⟩ : _ ∧
        r.1.file = File.pwrite 0 buf done ((file.drop (off.toNat + done)).take want) ∧
        r.1.got = ((file.drop (off.toNat + done)).take want).length ∧ _ :=
      stride_served hserves hpages hstop hon hlt buf (Eq.refl r)
    have hle' := length_take_le want (file.drop (off.toNat + done))
    have hfull' : r.1.got = want := Nat.le_antisymm (hgot ▸ hle') (Nat.le_of_not_lt hfull)
    have hsplit : (file.drop (off.toNat + done)).take (len - done) =
        (file.drop (off.toNat + done)).take want ++
          (file.drop (off.toNat + (done + r.1.got))).take (len - (done + r.1.got)) := by
      rw [hfull', ← Nat.add_assoc, ← Nat.sub_sub]
      generalize off.toNat + done = start
      rw [← drop_drop, ← take_add, Nat.add_sub_cancel' hwant]
    obtain ⟨st', hrest⟩ := ih (by omega) hkeep
    refine ⟨st', hrest.trans ?_⟩
    rw [hsplit, length_append, ← hgot, Nat.add_assoc, hfile, hgot, File.pwrite_append]
  | case4 done st buf hlt =>
    obtain rfl : done = len := Nat.le_antisymm hle (Nat.le_of_not_lt hlt)
    exact ⟨st, by simp⟩

/-- **The file arrives, whatever the policy**: from an origin that has the file, with page-mode
reads or without, a read gets the bytes of the file from the offset on, fewer than were asked for
only at its end; where checked pages are required, from an origin that has them. -/
theorem sdXrootPread_served (o : XrootOrigin) (verify : PgVerify) (file : Bytes)
    (hserves : o.Serves file) (hpages : verify = .require → o.HasPages file) (off : UInt64)
    (len : ℕ) (hstop : off.toNat + len < 2 ^ 63) (st : XrootObj)
    (hon : verify = .require → st.pgreadOff = false) (buf : Bytes) :
    ∃ st', sdXrootPread o verify off len 0 st buf =
      (some ((file.drop off.toNat).take len).length, st',
        File.pwrite 0 buf 0 ((file.drop off.toNat).take len)) := by
  simpa using sdXrootPread_from hserves hpages hstop (Nat.zero_le len) hon buf

theorem sdXrootPread_served_three :
    ∃ st', sdXrootPread (fileOrigin [1, 2, 3]) .require 1 8 0 ⟨false, 0⟩ [] =
      (some 2, st', [2, 3]) :=
  sdXrootPread_served _ .require [1, 2, 3] (fileOrigin_serves (by decide))
    (fun _ => ⟨rfl, fileOrigin_pagesServed _⟩) 1 8 (by decide) ⟨false, 0⟩ (fun _ => rfl) []

/-! ## Checked pages are required -/

/-- Bytes from an offset on, of pages that were right, each stride's in what was sent for it -/
inductive PagesFrom (o : XrootOrigin) : UInt64 → Bytes → Prop
  | nil (off : UInt64) : PagesFrom o off []
  | stride {k : ℕ} {rng : CacheReadRange} {sent rest data more : Bytes}
      (received : o.pgread k rng = sent ++ rest) (pages : OriginPages rng.readOff sent data)
      (next : PagesFrom o (rng.readOff + .ofNat data.length) more) :
      PagesFrom o rng.readOff (data ++ more)

theorem brixCacheOriginPgreadChunk_eq_ok {suppgrw : Bool}
    (h : (brixCacheOriginPgreadChunk sink suppgrw rng file stream).rc = .ok ()) :
    ∃ sent rest data, stream = sent ++ rest ∧ OriginPages rng.readOff sent data ∧
      data.length ≤ rng.want ∧ brixCacheOriginPgreadChunk sink suppgrw rng file stream =
        ⟨.ok (), File.pwrite 0 file rng.dstOff data, data.length⟩ := by
  rw [brixCacheOriginPgreadChunk] at h ⊢
  split at h
  · next hsupp =>
    have hchecked : OriginChecked rng file 0 stream (originPgreadLoop sink rng file 0 stream) :=
      originPgreadLoop_checked (Nat.zero_le rng.want)
    rw [if_pos hsupp]
    obtain ⟨sent, rest, data, k, hstream, hpages, hwant, hfile, -, hdone⟩ := hchecked
    generalize originPgreadLoop sink rng file 0 stream = r at *
    obtain ⟨rc, file', got⟩ := r
    obtain ⟨hgot, hle⟩ := hdone h
    dsimp only at h hgot hfile
    rw [take_of_length_le hle, Nat.add_zero] at hfile
    rw [Nat.zero_add] at hgot hwant
    rw [show rng.readOff + .ofNat 0 = rng.readOff from UInt64.add_zero _] at hpages
    exact ⟨sent, rest, data, hstream, hpages, hwant, by rw [h, hgot, hfile]⟩
  · cases h

theorem xrootReadRange_required (hon : st.pgreadOff = false) :
    (xrootReadRange o .require sink rng st file).2.pgreadOff = false ∧
      ((xrootReadRange o .require sink rng st file).1.rc = .ok () →
        ∃ sent rest data, o.pgread st.asked rng = sent ++ rest ∧
          OriginPages rng.readOff sent data ∧ data.length ≤ rng.want ∧
          (xrootReadRange o .require sink rng st file).1 =
            ⟨.ok (), File.pwrite 0 file rng.dstOff data, data.length⟩) := by
  have hplain : ¬ (PgVerify.require = .off ∨ st.pgreadOff = true) := by simp [hon]
  rw [xrootReadRange, if_neg hplain]
  dsimp only
  split
  · rw [if_pos rfl]
    exact ⟨hon, fun h => by cases h⟩
  · exact ⟨hon, fun h => brixCacheOriginPgreadChunk_eq_ok h⟩

/-- **Where checked pages are required, none but such bytes are read**: whatever the origin sends,
the bytes that a read returns came in order, from the offset on, in pages whose checksums are right;
and the handle requires them of the next read too. -/
theorem sdXrootPread_required (o : XrootOrigin) (off : UInt64) (len : ℕ) (st : XrootObj)
    (buf : Bytes) (hon : st.pgreadOff = false) :
    (sdXrootPread o .require off len 0 st buf).2.1.pgreadOff = false ∧
      ∀ n, (sdXrootPread o .require off len 0 st buf).1 = some n →
        ∃ data, PagesFrom o off data ∧ data.length = n ∧ n ≤ len ∧
          (sdXrootPread o .require off len 0 st buf).2.2 = File.pwrite 0 buf 0 data := by
  have hrun : ∀ done, done ≤ len →
      (sdXrootPread o .require off len done st buf).2.1.pgreadOff = false ∧
        ∀ n, (sdXrootPread o .require off len done st buf).1 = some n →
          ∃ data, PagesFrom o (off + .ofNat done) data ∧ done + data.length = n ∧ n ≤ len ∧
            (sdXrootPread o .require off len done st buf).2.2 = File.pwrite 0 buf done data := by
    intro done hle
    fun_induction sdXrootPread o .require off len done st buf with
    | case1 done st buf hlt want r rc hrc =>
      exact ⟨(xrootReadRange_required hon).1, fun n hn => by cases hn⟩
    | case2 done st buf hlt want r hrc hshort =>
      obtain ⟨hkeep, hok⟩ : r.2.pgreadOff = false ∧ _ := xrootReadRange_required hon
      obtain ⟨sent, rest, data, hstream, hpages, hwant, hr⟩ := hok hrc
      have hleft := (xrootWant_le (len - done)).1
      refine ⟨hkeep, fun n hn => ?_⟩
      cases hn
      rw [show r.1 = _ from hr] at hshort ⊢
      refine ⟨data, ?_, rfl, ?_, rfl⟩
      · simpa using PagesFrom.stride hstream hpages (.nil _)
      · dsimp only at hwant ⊢
        omega
    | case3 done st buf hlt want r hrc hfull ih =>
      obtain ⟨hkeep, hok⟩ : r.2.pgreadOff = false ∧ _ := xrootReadRange_required hon
      obtain ⟨sent, rest, data, hstream, hpages, hwant, hr⟩ := hok hrc
      have hleft := (xrootWant_le (len - done)).1
      rw [show r.1 = _ from hr] at hfull ih ⊢
      obtain ⟨hkeep', hall⟩ := ih hkeep (by dsimp only at hwant ⊢; omega)
      refine ⟨hkeep', fun n hn => ?_⟩
      obtain ⟨more, hmore, hn, hlen, hbuf⟩ := hall n hn
      refine ⟨data ++ more, ?_, ?_, hlen, ?_⟩
      · rw [UInt64.ofNat_add, ← UInt64.add_assoc] at hmore
        exact .stride hstream hpages hmore
      · rw [length_append, ← Nat.add_assoc]
        exact hn
      · rw [hbuf]
        exact File.pwrite_append 0 buf done data more
    | case4 done st buf hlt =>
      refine ⟨hon, fun n hn => ⟨[], .nil _, Option.some.inj hn, ?_, rfl⟩⟩
      exact (Option.some.inj hn) ▸ hle
  simpa using hrun 0 (Nat.zero_le _)

theorem sdXrootPread_required_three :
    ∃ data, PagesFrom (fileOrigin [1, 2, 3]) 1 data ∧ data.length = 2 ∧ 2 ≤ 8 ∧
      (sdXrootPread (fileOrigin [1, 2, 3]) .require 1 8 0 ⟨false, 0⟩ []).2.2 =
        File.pwrite 0 [] 0 data := by
  obtain ⟨st', hrun⟩ := @sdXrootPread_from (fileOrigin [1, 2, 3]) .require ⟨false, 0⟩ [1, 2, 3]
    (fileOrigin_serves (by decide)) (fun _ => ⟨rfl, fileOrigin_pagesServed _⟩) 1 8 0 (by decide)
    (by decide) (fun _ => rfl) []
  exact (sdXrootPread_required (fileOrigin [1, 2, 3]) 1 8 ⟨false, 0⟩ [] rfl).2 2
    (congrArg Prod.fst hrun)

end BrixCache
