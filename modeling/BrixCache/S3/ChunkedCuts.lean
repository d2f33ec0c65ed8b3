import BrixCache.Lib.Pieces
import BrixCache.S3.Chunked

/-!
# Where a body is cut does not matter

The machine takes payload in bulk and everything else byte by byte. A bulk of payload that is
cut leaves the same state, or both attempts fail: the machine is resumable up to the details of
a failure.
-/

namespace BrixCache

open List

variable (env : ChunkEnv)

/-! ## One span -/

theorem chunkFeedStep_length (c : ChunkCtx) (ch : UInt8) (rest : Bytes) :
    (chunkFeedStep env c ch rest).2.length ≤ rest.length := by
  unfold chunkFeedStep
  split
  case h_4 hdata =>
    have howed := c.owed hdata
    simp
    omega
  all_goals exact Nat.le_refl _

variable {c : ChunkCtx} {p : Bytes}

theorem chunkFeedLoop_ended (h : c.ended = true) (fuel : ℕ) (span : Bytes) :
    chunkFeedLoop env fuel c span = c := by
  cases fuel with
  | zero => rfl
  | succ n =>
    cases span with
    | nil => rfl
    | cons ch rest => simp [chunkFeedLoop, h]

theorem chunkFeedLoop_fuel {n m : ℕ} (c : ChunkCtx) (span : Bytes) (hn : span.length ≤ n)
    (hm : span.length ≤ m) : chunkFeedLoop env n c span = chunkFeedLoop env m c span := by
  induction n generalizing m c span with
  | zero =>
    obtain rfl := eq_nil_of_length_eq_zero (Nat.le_zero.mp hn)
    cases m <;> rfl
  | succ n ih =>
    cases span with
    | nil => cases m <;> rfl
    | cons ch rest =>
      cases m with
      | zero => cases hm
      | succ m =>
        simp only [chunkFeedLoop]
        split
        · rfl
        · have hlen := chunkFeedStep_length env c ch rest
          exact ih _ _ (Nat.le_trans hlen (Nat.le_of_succ_le_succ hn))
            (Nat.le_trans hlen (Nat.le_of_succ_le_succ hm))

@[simp] theorem s3ChunkFeed_nil (c : ChunkCtx) : s3ChunkFeed env c [] = c := rfl

theorem s3ChunkFeed_ended (h : c.ended = true) (span : Bytes) :
    s3ChunkFeed env c span = c := chunkFeedLoop_ended env h _ _

theorem s3ChunkFeed_cons (h : c.ended = false) (ch : UInt8) (rest : Bytes) :
    s3ChunkFeed env c (ch :: rest) =
      s3ChunkFeed env (chunkFeedStep env c ch rest).1 (chunkFeedStep env c ch rest).2 := by
  unfold s3ChunkFeed
  simp only [length_cons, chunkFeedLoop, h, Bool.false_eq_true, if_false]
  exact chunkFeedLoop_fuel env _ _ (chunkFeedStep_length env c ch rest) (Nat.le_refl _)

/-! ## What failures have in common -/

/-- The same state, or both failed — with the same status, as long as no write fails. -/
def ChunkAlike (c d : ChunkCtx) : Prop :=
  c = d ∨ c.state = .error ∧ d.state = .error ∧
    ((∀ off, env.writable off = true) → c.httpStatus = d.httpStatus)

namespace ChunkAlike

variable {env}

theorem refl (c : ChunkCtx) : ChunkAlike env c c := .inl rfl

variable {c d : ChunkCtx}

theorem trans {e : ChunkCtx} (h : ChunkAlike env c d) (h' : ChunkAlike env d e) :
    ChunkAlike env c e := by
  rcases h with rfl | ⟨hc, hd, hs⟩
  · exact h'
  · rcases h' with rfl | ⟨-, he, hs'⟩
    · exact .inr ⟨hc, hd, hs⟩
    · exact .inr ⟨hc, he, fun hw => (hs hw).trans (hs' hw)⟩

theorem symm (h : ChunkAlike env c d) : ChunkAlike env d c := by
  rcases h with rfl | ⟨hc, hd, hs⟩
  · exact refl _
  · exact .inr ⟨hd, hc, fun hw => (hs hw).symm⟩

theorem congr (span : Bytes) (h : ChunkAlike env c d) :
    ChunkAlike env (s3ChunkFeed env c span) (s3ChunkFeed env d span) := by
  rcases h with rfl | ⟨hc, hd, hs⟩
  · exact refl _
  · rw [s3ChunkFeed_ended env (by simp [ChunkCtx.ended, hc]),
      s3ChunkFeed_ended env (by simp [ChunkCtx.ended, hd])]
    exact .inr ⟨hc, hd, hs⟩

end ChunkAlike

/-! ## Payload in bulk -/

theorem vfsPwriteFull_eq {off : ℕ}
    (h : ¬ (vfsPwriteFull env off p).length < p.length) : vfsPwriteFull env off p = p := by
  induction p generalizing off with
  | nil => rfl
  | cons b bs ih =>
    rw [vfsPwriteFull] at h ⊢
    split at h
    · next hw =>
      rw [if_pos hw, ih (by simpa using h)]
    · exact absurd (Nat.succ_pos _) h

theorem vfsPwriteFull_append (off : ℕ) (p q : Bytes) :
    vfsPwriteFull env off (p ++ q) =
      if (vfsPwriteFull env off p).length < p.length then vfsPwriteFull env off p
      else p ++ vfsPwriteFull env (off + p.length) q := by
  induction p generalizing off with
  | nil => simp [vfsPwriteFull]
  | cons b bs ih =>
    rw [cons_append, vfsPwriteFull, vfsPwriteFull]
    split
    · rw [ih]
      simp only [length_cons, Nat.add_lt_add_iff_right, Nat.add_assoc, Nat.add_comm 1]
      split <;> rfl
    · simp

theorem vfsPwriteFull_of_writable (h : ∀ off, env.writable off = true) (off : ℕ)
    (p : Bytes) : vfsPwriteFull env off p = p := by
  induction p generalizing off with
  | nil => rfl
  | cons b bs ih => rw [vfsPwriteFull, if_pos (h off), ih]

theorem s3ChunkEmit_ok (h : ¬ env.expected < c.written.length + p.length)
    (hfull : ¬ (vfsPwriteFull env c.written.length p).length < p.length) :
    s3ChunkEmit env c p = { c with written := c.written ++ p } := by
  simp [s3ChunkEmit, h, vfsPwriteFull_eq env hfull]

/-- The state with more payload taken in -/
def chunkTaken (c : ChunkCtx) (p : Bytes) : ChunkCtx :=
  { c with
    written := c.written ++ p
    sha := if env.verify.isSome then c.sha ++ p else c.sha }

theorem chunkTaken_append (c : ChunkCtx) (p q : Bytes) :
    chunkTaken env c (p ++ q) = chunkTaken env (chunkTaken env c p) q := by
  unfold chunkTaken
  split <;> simp

/-- What taking payload comes to -/
inductive Consumed (c : ChunkCtx) (p : Bytes) : ChunkCtx → Prop where
  /-- more than the declared length -/
  | beyond (d : ChunkCtx) : env.expected < c.written.length + p.length → d.state = .error →
      d.httpStatus = httpBadRequest → Consumed c p d
  /-- a write fails -/
  | full (d : ChunkCtx) : ¬ env.expected < c.written.length + p.length →
      (vfsPwriteFull env c.written.length p).length < p.length → d.state = .error →
      Consumed c p d
  | taken : ¬ env.expected < c.written.length + p.length →
      ¬ (vfsPwriteFull env c.written.length p).length < p.length →
      Consumed c p (chunkAdvance env (chunkTaken env c p) p.length)

theorem chunkConsumeData_cases (hdata : c.state = .data) (p : Bytes) :
    Consumed env c p (chunkConsumeData env c p) := by
  by_cases hover : env.expected < c.written.length + p.length
  · refine .beyond _ hover ?_ ?_ <;> simp [chunkConsumeData, s3ChunkEmit, hover, ChunkCtx.fail]
  · by_cases hfull : (vfsPwriteFull env c.written.length p).length < p.length
    · refine .full _ hover hfull ?_
      simp [chunkConsumeData, s3ChunkEmit, hover, hfull, ChunkCtx.fail]
    · have hemit := s3ChunkEmit_ok env
        (c := { c with sha := if env.verify.isSome then c.sha ++ p else c.sha }) hover hfull
      have hnot : (chunkTaken env c p).state ≠ .error := by simp [chunkTaken, hdata]
      unfold chunkConsumeData
      rw [hemit]
      exact (if_neg hnot).symm ▸ .taken hover hfull

theorem chunkAdvance_add (q : Bytes) (hp : p.length < c.chunkRemaining) :
    chunkAdvance env (chunkTaken env c (p ++ q)) (p ++ q).length =
      chunkAdvance env (chunkTaken env (chunkAdvance env (chunkTaken env c p) p.length) q)
        q.length := by
  rw [chunkTaken_append, length_append]
  unfold chunkAdvance
  simp [chunkTaken, hp, Nat.lt_sub_iff_add_lt, Nat.add_comm, Nat.sub_sub]

/-- Two pieces of a chunk's data are consumed as one. -/
theorem chunkConsumeData_append (q : Bytes)
    (hdata : c.state = .data) (hp : p.length < c.chunkRemaining) :
    (chunkConsumeData env c p).state = .error ∧
        ChunkAlike env (chunkConsumeData env c (p ++ q)) (chunkConsumeData env c p) ∨
      (chunkConsumeData env c p).state = .data ∧
        (chunkConsumeData env c p).chunkRemaining = c.chunkRemaining - p.length ∧
        ChunkAlike env (chunkConsumeData env c (p ++ q))
          (chunkConsumeData env (chunkConsumeData env c p) q) := by
  have hjoined := chunkConsumeData_cases env hdata (p ++ q)
  have hlen : (p ++ q).length = p.length + q.length := length_append
  have hwrite := vfsPwriteFull_append env c.written.length p q
  generalize chunkConsumeData env c (p ++ q) = joined at hjoined
  have hfirst := chunkConsumeData_cases env hdata p
  generalize hfirst' : chunkConsumeData env c p = first at hfirst
  cases hfirst with
  | beyond _ hover herr hstatus =>
    refine .inl ⟨herr, ?_⟩
    cases hjoined with
    | beyond _ _ herr' hstatus' =>
      exact .inr ⟨herr', herr, fun _ => hstatus'.trans hstatus.symm⟩
    | full _ hnot | taken hnot => exact absurd (by omega) hnot
  | full _ hnot hfull herr =>
    rw [if_pos hfull] at hwrite
    have hall : ¬ ∀ off, env.writable off = true := by
      intro h
      rw [vfsPwriteFull_of_writable env h] at hfull
      exact Nat.lt_irrefl _ hfull
    refine .inl ⟨herr, ?_⟩
    cases hjoined with
    | beyond _ _ herr' _ | full _ _ _ herr' => exact .inr ⟨herr', herr, fun h => absurd h hall⟩
    | taken _ hnot' =>
      rw [hwrite] at hnot'
      exact absurd (by omega) hnot'
  | taken hnot hok =>
    rw [if_neg hok] at hwrite
    have hadvance : chunkAdvance env (chunkTaken env c p) p.length =
        { chunkTaken env c p with
          chunkRemaining := c.chunkRemaining - p.length
          owed := fun _ => Nat.sub_pos_of_lt hp } := by
      unfold chunkAdvance
      rw [dif_pos (by exact hp)]
      rfl
    have hdata' : (chunkAdvance env (chunkTaken env c p) p.length).state = .data := by
      rw [hadvance]
      exact hdata
    have hwritten : (chunkAdvance env (chunkTaken env c p) p.length).written =
        c.written ++ p := by
      rw [hadvance]
      rfl
    have hlen' : (c.written ++ p).length = c.written.length + p.length := length_append
    refine .inr ⟨hdata', by rw [hadvance], ?_⟩
    have hsecond := chunkConsumeData_cases env hdata' q
    generalize chunkConsumeData env (chunkAdvance env (chunkTaken env c p) p.length) q = second
      at hsecond
    have hwrite' : (vfsPwriteFull env c.written.length (p ++ q)).length =
        p.length + (vfsPwriteFull env (c.written ++ p).length q).length := by
      rw [hwrite, hlen', length_append]
    -- the two attempts refuse the rest, or fail to write it, alike
    cases hjoined with
    | beyond _ hover herr hstatus =>
      cases hsecond with
      | beyond _ _ herr' hstatus' =>
        exact .inr ⟨herr, herr', fun _ => hstatus.trans hstatus'.symm⟩
      | full _ hnot' | taken hnot' =>
        rw [hwritten] at hnot'
        omega
    | full _ hnot' hfull herr =>
      have hall : ¬ ∀ off, env.writable off = true := by
        intro h
        rw [vfsPwriteFull_of_writable env h] at hfull
        exact Nat.lt_irrefl _ hfull
      cases hsecond with
      | beyond _ _ herr' _ | full _ _ _ herr' => exact .inr ⟨herr, herr', fun h => absurd h hall⟩
      | taken _ hok' =>
        rw [hwritten] at hok'
        omega
    | taken hnot' hok' =>
      cases hsecond with
      | beyond _ hover _ _ =>
        rw [hwritten] at hover
        omega
      | full _ _ hfull _ =>
        rw [hwritten] at hfull
        omega
      | taken _ _ => exact .inl (chunkAdvance_add env q hp)

/-! ## Spans -/

theorem chunkFeedStep_data (hdata : c.state = .data) (ch : UInt8) (rest : Bytes) :
    chunkFeedStep env c ch rest =
      (chunkConsumeData env c ((ch :: rest).take c.chunkRemaining),
        (ch :: rest).drop c.chunkRemaining) := by
  simp only [chunkFeedStep, hdata]

theorem chunkFeedStep_append (hdata : c.state ≠ .data) (ch : UInt8) (rest q : Bytes) :
    chunkFeedStep env c ch (rest ++ q) =
      ((chunkFeedStep env c ch rest).1, (chunkFeedStep env c ch rest).2 ++ q) := by
  unfold chunkFeedStep
  split <;> first | rfl | exact absurd ‹_› hdata

theorem s3ChunkFeed_append_data {ch : UInt8} {rest : Bytes} (q : Bytes)
    (hdata : c.state = .data) (hp : (ch :: rest).length < c.chunkRemaining) :
    ChunkAlike env (s3ChunkFeed env c (ch :: rest ++ q))
      (s3ChunkFeed env (s3ChunkFeed env c (ch :: rest)) q) := by
  have hrun : c.ended = false := by simp [ChunkCtx.ended, hdata]
  have htake : ((ch :: rest) ++ q).take c.chunkRemaining =
      (ch :: rest) ++ q.take (c.chunkRemaining - (ch :: rest).length) := by
    rw [take_append, take_of_length_le (Nat.le_of_lt hp)]
  have hdrop : ((ch :: rest) ++ q).drop c.chunkRemaining =
      q.drop (c.chunkRemaining - (ch :: rest).length) := by
    rw [drop_append, drop_of_length_le (Nat.le_of_lt hp), nil_append]
  have hfirst : s3ChunkFeed env c (ch :: rest) = chunkConsumeData env c (ch :: rest) := by
    rw [s3ChunkFeed_cons env hrun, chunkFeedStep_data env hdata,
      take_of_length_le (Nat.le_of_lt hp), drop_of_length_le (Nat.le_of_lt hp)]
    rfl
  rw [hfirst, cons_append, s3ChunkFeed_cons env hrun, chunkFeedStep_data env hdata,
    ← cons_append, htake, hdrop]
  rcases chunkConsumeData_append env (q.take (c.chunkRemaining - (ch :: rest).length)) hdata hp with
    ⟨herr, halike⟩ | ⟨hdata', hremaining, halike⟩
  · have hended : (chunkConsumeData env c (ch :: rest)).ended = true := by
      simp [ChunkCtx.ended, herr]
    have hgo := halike.congr (q.drop (c.chunkRemaining - (ch :: rest).length))
    rw [s3ChunkFeed_ended env hended] at hgo ⊢
    exact hgo
  · cases q with
    | nil =>
      simp only [take_nil, append_nil, drop_nil]
      exact ChunkAlike.refl _
    | cons x xs =>
      have hrun' : (chunkConsumeData env c (ch :: rest)).ended = false := by
        simp [ChunkCtx.ended, hdata']
      rw [s3ChunkFeed_cons env hrun', chunkFeedStep_data env hdata', hremaining]
      exact halike.congr _

theorem s3ChunkFeed_append (c : ChunkCtx) (p q : Bytes) :
    ChunkAlike env (s3ChunkFeed env c (p ++ q)) (s3ChunkFeed env (s3ChunkFeed env c p) q) := by
  induction hn : p.length using Nat.strongRecOn generalizing c p with
  | _ n ih =>
    by_cases hended : c.ended = true
    · rw [s3ChunkFeed_ended env hended, s3ChunkFeed_ended env hended, s3ChunkFeed_ended env hended]
      exact ChunkAlike.refl c
    · have hrun : c.ended = false := by simpa using hended
      cases p with
      | nil => exact ChunkAlike.refl _
      | cons ch rest =>
        have hlen : (chunkFeedStep env c ch rest).2.length < n :=
          hn ▸ Nat.lt_succ_of_le (chunkFeedStep_length env c ch rest)
        have hgo := ih _ hlen (chunkFeedStep env c ch rest).1 (chunkFeedStep env c ch rest).2 rfl
        by_cases hdata : c.state = .data
        · by_cases hp : (ch :: rest).length < c.chunkRemaining
          · exact s3ChunkFeed_append_data env q hdata hp
          · have hle := Nat.le_of_not_lt hp
            rw [cons_append, s3ChunkFeed_cons env hrun, s3ChunkFeed_cons env hrun,
              chunkFeedStep_data env hdata, ← cons_append, take_append_of_le_length hle,
              drop_append_of_le_length hle]
            rw [chunkFeedStep_data env hdata] at hgo ⊢
            exact hgo
        · rw [cons_append, s3ChunkFeed_cons env hrun, s3ChunkFeed_cons env hrun,
            chunkFeedStep_append env hdata]
          exact hgo

theorem chunkResumable : Resumable (s3ChunkFeed env) (ChunkAlike env) where
  refl := ChunkAlike.refl
  symm := ChunkAlike.symm
  trans := ChunkAlike.trans
  congr span h := h.congr span
  nil c := ChunkAlike.refl c
  append := s3ChunkFeed_append env

/-! ## Buffers -/

theorem chunkFeedWindows_alike (c : ChunkCtx) {fuel : ℕ} {bs : Bytes}
    (hfuel : bs.length ≤ fuel) :
    ChunkAlike env (chunkFeedWindows env fuel c bs none) (s3ChunkFeed env c bs) := by
  induction fuel generalizing c bs with
  | zero =>
    obtain rfl := eq_nil_of_length_eq_zero (Nat.le_zero.mp hfuel)
    exact ChunkAlike.refl c
  | succ n ih =>
    rw [chunkFeedWindows]
    split
    · next hstop =>
      rcases hstop with rfl | hended
      · exact ChunkAlike.refl c
      · rw [s3ChunkFeed_ended env hended]
        exact ChunkAlike.refl c
    · next hgo =>
      have hne : bs ≠ [] := fun h => hgo (.inl h)
      have hpos := length_pos_iff.mpr hne
      have hwin : 0 < s3ChunkReadWindow := Nat.mul_pos (by decide) (by decide)
      rw [if_neg nofun]
      have hdrop : (bs.drop s3ChunkReadWindow).length ≤ n := by
        rw [length_drop]
        omega
      have hih := ih (s3ChunkFeed env c (bs.take s3ChunkReadWindow)) hdrop
      refine hih.trans ?_
      have happ := s3ChunkFeed_append env c (bs.take s3ChunkReadWindow) (bs.drop s3ChunkReadWindow)
      rw [take_append_drop] at happ
      exact happ.symm

theorem s3ChunkFeedBuf_alike {b : BodyBuf} (h : b.Readable) (c : ChunkCtx) :
    ChunkAlike env (s3ChunkFeedBuf env c b) (s3ChunkFeed env c b.bytes) := by
  cases b with
  | memory bs => exact ChunkAlike.refl _
  | spooled bs failsAt =>
    obtain rfl : failsAt = none := h
    exact chunkFeedWindows_alike env c (Nat.le_refl _)

theorem chunkFeedWindows_ended (h : c.ended = true) (fuel : ℕ) (bs : Bytes)
    (failsAt : Option ℕ) : chunkFeedWindows env fuel c bs failsAt = c := by
  cases fuel with
  | zero => rfl
  | succ n => rw [chunkFeedWindows, if_pos (.inr h)]

theorem s3ChunkFeedBuf_ended (h : c.ended = true) (b : BodyBuf) :
    s3ChunkFeedBuf env c b = c := by
  cases b with
  | memory bs => exact s3ChunkFeed_ended env h bs
  | spooled bs failsAt => exact chunkFeedWindows_ended env h _ bs failsAt

theorem s3ChunkFeedBuf_foldl_ended (h : c.ended = true) (bufs : List BodyBuf) :
    bufs.foldl (s3ChunkFeedBuf env) c = c := by
  induction bufs with
  | nil => rfl
  | cons b bufs ih => rw [foldl_cons, s3ChunkFeedBuf_ended env h, ih]

theorem s3ChunkDecDrain_eq (c : ChunkCtx) (bufs : List BodyBuf) :
    s3ChunkDecDrain env c bufs = bufs.foldl (s3ChunkFeedBuf env) c := by
  induction bufs generalizing c with
  | nil => rfl
  | cons b bufs ih =>
    rw [s3ChunkDecDrain, foldl_cons]
    split
    · next herr =>
      rw [s3ChunkFeedBuf_foldl_ended env (by simp [ChunkCtx.ended, herr])]
    · exact ih _

/-- What two decodes have in common: the verdict; everything, when it is `NGX_OK`; and the
status, as long as no write fails. -/
structure SameVerdict (r r' : Decoded) : Prop where
  verdict : r.error = none ↔ r'.error = none
  same : r.error = none → r = r'
  status : (∀ off, env.writable off = true) → r.error = r'.error

theorem ChunkAlike.sameVerdict {d : ChunkCtx} (h : ChunkAlike env c d) :
    SameVerdict env (s3ChunkDecRun env c) (s3ChunkDecRun env d) := by
  rcases h with rfl | ⟨hc, hd, hs⟩
  · exact ⟨Iff.rfl, fun _ => rfl, fun _ => rfl⟩
  · simp only [s3ChunkDecRun, hc, hd, if_true]
    exact ⟨by simp, by simp, fun hw => by rw [hs hw]⟩

/-- The buffers hold the stream, and reading them does not fail. -/
structure CutInto (stream : Bytes) (bufs : List BodyBuf) : Prop where
  some : bufs ≠ []
  bytes : bufs.flatMap BodyBuf.bytes = stream
  readable : ∀ b ∈ bufs, b.Readable

theorem s3AwsChunkedDecodeToFd_cut {stream : Bytes} {bufs : List BodyBuf}
    (h : CutInto stream bufs) :
    SameVerdict env (s3AwsChunkedDecodeToFd env bufs)
      (s3ChunkDecRun env (s3ChunkFeed env (s3ChunkDecInit env) stream)) := by
  rw [s3AwsChunkedDecodeToFd, if_neg h.some, s3ChunkDecDrain_eq, ← h.bytes]
  exact ChunkAlike.sameVerdict env ((chunkResumable env).foldl
    (fun c b hb => s3ChunkFeedBuf_alike env (h.readable b hb) c) _)

theorem s3AwsChunkedDecodeToFd_cuts {stream : Bytes} {bufs bufs' : List BodyBuf}
    (h : CutInto stream bufs) (h' : CutInto stream bufs') :
    SameVerdict env (s3AwsChunkedDecodeToFd env bufs) (s3AwsChunkedDecodeToFd env bufs') := by
  have hl := s3AwsChunkedDecodeToFd_cut env h
  have hr := s3AwsChunkedDecodeToFd_cut env h'
  refine ⟨hl.verdict.trans hr.verdict.symm, fun hok => ?_, fun hw => ?_⟩
  · exact (hl.same hok).trans (hr.same (hr.verdict.mpr (hl.verdict.mp hok))).symm
  · exact (hl.status hw).trans (hr.status hw).symm

end BrixCache
