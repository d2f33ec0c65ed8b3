import BrixCache.Lib.Posix
import BrixCache.Lib.Run

/-!
# Serving while filling

`fs/backend/cache/sd_cache_follow.c`: a reader that follows a fill in flight. The
two share a staged file and a marker; the filler (`sd_cache_fill_attempt`)
writes, then renames or unlinks the staged file, then withdraws the marker. A
follower's `pread` is up to three system calls, with the filler's between them.

Of the staged file only its size and its link count matter here: the fill writes
it from the start on, without gaps.
-/

namespace BrixCache

open List

/-! ## The fill -/

/-- How far a fill is, as its followers can tell -/
inductive FillPhase : Type where
  /-- the marker is out, the staged file is being written -/
  | pumping : FillPhase
  /-- the staged file has become the object -/
  | renamed : FillPhase
  /-- the fill failed, the staged file is gone -/
  | unlinked : FillPhase
  | committed : FillPhase
  /-- unlinked, and the marker withdrawn -/
  | aborted : FillPhase
  deriving DecidableEq

/-- The partial marker stands until the fill commits or aborts. -/
def FillPhase.marker : FillPhase → Bool
  | .committed | .aborted => false
  | _ => true

/-- The link count of the staged file, as a follower's descriptor sees it. -/
def FillPhase.nlink : FillPhase → ℕ
  | .unlinked | .aborted => 0
  | _ => 1

/-- Has the staged file been published? -/
def FillPhase.published : FillPhase → Bool
  | .renamed | .committed => true
  | _ => false

/-- A fill and its staged file -/
structure StagedFill : Type where
  phase : FillPhase
  /-- of the staged file -/
  size : ℕ
  /-- read from the source and not written yet -/
  chunk : ℕ
  /-- the source's size as the fill found it, `0` when unknown -/
  target : ℕ

/-- The pump has all it wants. -/
def StagedFill.full (fs : StagedFill) : Bool := decide (0 < fs.target ∧ fs.target ≤ fs.size)

/-! ## The follower -/

/-- `sd_cache_follow_t`, less its paths and its descriptor. -/
structure CacheFollow : Type where
  /-- the size the marker declares, `0` when unknown -/
  declared : ℕ
  /-- the last size observed -/
  frontier : ℕ
  /-- when it last advanced -/
  movedAt : ℕ

/-- `follow_frontier` after an `fstat` that found this size. -/
def followFrontier (f : CacheFollow) (size now : ℕ) : CacheFollow :=
  if f.frontier < size then { f with frontier := size, movedAt := now } else f

/-- `follow_at_frontier` up to its `access`: a verdict, if there is one yet. -/
def followAtFrontier (f : CacheFollow) (nlink : ℕ) : Option (Except Errno ℕ) :=
  if nlink = 0 then some (.error .eio)
  else if 0 < f.declared ∧ f.declared ≤ f.frontier then some (.ok 0)
  else none

/-- The rest of it, with what `access` found; `limit` is the policy's
`serve_while_filling`, in seconds. -/
def followAfterAccess (limit : ℕ) (f : CacheFollow) (present : Bool) (now : ℕ) :
    Except Errno ℕ :=
  if present = false then .ok 0
  else if ((limit * 1000 : ℕ) : ℤ) < (now : ℤ) - f.movedAt then .error .etimedout
  else .error .eagain

/-- Where a follower's `pread` is. -/
inductive FollowCall : Type where
  | idle : FollowCall
  /-- at the frontier, about to look for the marker -/
  | access (off : ℕ) : FollowCall
  /-- below it, about to read -/
  | pread (off len : ℕ) : FollowCall

/-- `sd_cache_follow_pread` after its `fstat`: a verdict, or the call that comes
next. -/
def followAfterFstat (f : CacheFollow) (nlink off len : ℕ) : Except Errno ℕ ⊕ FollowCall :=
  if f.frontier ≤ off then
    match followAtFrontier f nlink with
    | some r => .inl r
    | none => .inr (.access off)
  else .inr (.pread off (if f.frontier - off < len then f.frontier - off else len))

/-! ## The system -/

/-- What a follower's `pread` returned; `.ok 0` is an end of file. -/
structure FollowAnswer : Type where
  off : ℕ
  result : Except Errno ℕ
  failed : Bool

/-- A fill, and one follower in a read -/
structure FollowState : Type where
  fill : StagedFill
  follow : CacheFollow
  call : FollowCall
  answers : List FollowAnswer

/-- A `pread` returns. -/
def FollowState.answer (s : FollowState) (off : ℕ) (r : Except Errno ℕ) : FollowState :=
  { s with
    call := .idle
    answers := ⟨off, r, decide (s.fill.phase.nlink = 0)⟩ :: s.answers }

/-- A system call, of the filler or of the follower. -/
inductive FollowAct : Type where
  /-- the source answers a chunk -/
  | readChunk (n : ℕ) : FollowAct
  /-- a part of the chunk goes to the staged file -/
  | write (n : ℕ) : FollowAct
  | rename : FollowAct
  | unlinkStaged : FollowAct
  /-- `sd_cache_follow_withdraw` -/
  | withdraw : FollowAct
  | fstat (off len now : ℕ) : FollowAct
  | access (now : ℕ) : FollowAct
  | pread : FollowAct
  /-- the follower's next call fails -/
  | failed (off : ℕ) (e : Errno) : FollowAct

/-- One system call. A read asks for at least one byte. -/
inductive FollowStep (limit : ℕ) : FollowState → FollowAct → FollowState → Prop where
  | readChunk {s : FollowState} {n : ℕ} (hphase : s.fill.phase = .pumping)
      (hchunk : s.fill.chunk = 0) (hmore : s.fill.full = false) :
      FollowStep limit s (.readChunk n) { s with fill := { s.fill with chunk := n } }
  | write {s : FollowState} {n : ℕ} (hphase : s.fill.phase = .pumping) (hpos : 0 < n)
      (hchunk : n ≤ s.fill.chunk) :
      FollowStep limit s (.write n)
        { s with fill :=
          { s.fill with size := s.fill.size + n, chunk := s.fill.chunk - n } }
  | rename {s : FollowState} (hphase : s.fill.phase = .pumping) (hchunk : s.fill.chunk = 0)
      -- a fill that ended short of the size it knows is not published
      (hwhole : 0 < s.fill.target → s.fill.full = true) :
      FollowStep limit s .rename { s with fill := { s.fill with phase := .renamed } }
  | unlinkStaged {s : FollowState} (hphase : s.fill.phase = .pumping) :
      FollowStep limit s .unlinkStaged { s with fill := { s.fill with phase := .unlinked } }
  | withdrawCommitted {s : FollowState} (hphase : s.fill.phase = .renamed) :
      FollowStep limit s .withdraw { s with fill := { s.fill with phase := .committed } }
  | withdrawAborted {s : FollowState} (hphase : s.fill.phase = .unlinked) :
      FollowStep limit s .withdraw { s with fill := { s.fill with phase := .aborted } }
  | fstatVerdict {s : FollowState} {off len now : ℕ} {r : Except Errno ℕ} (hlen : 0 < len)
      (hidle : s.call = .idle)
      (hnext : followAfterFstat (followFrontier s.follow s.fill.size now) s.fill.phase.nlink
        off len = .inl r) :
      FollowStep limit s (.fstat off len now)
        ({ s with follow := followFrontier s.follow s.fill.size now }.answer off r)
  | fstat {s : FollowState} {off len now : ℕ} {c : FollowCall} (hlen : 0 < len)
      (hidle : s.call = .idle)
      (hnext : followAfterFstat (followFrontier s.follow s.fill.size now) s.fill.phase.nlink
        off len = .inr c) :
      FollowStep limit s (.fstat off len now)
        { s with follow := followFrontier s.follow s.fill.size now, call := c }
  | access {s : FollowState} {off now : ℕ} (hcall : s.call = .access off) :
      FollowStep limit s (.access now)
        (s.answer off (followAfterAccess limit s.follow s.fill.phase.marker now))
  | pread {s : FollowState} {off len : ℕ} (hcall : s.call = .pread off len) :
      FollowStep limit s .pread (s.answer off (.ok (min len (s.fill.size - off))))
  | failed (s : FollowState) (off : ℕ) (e : Errno) :
      FollowStep limit s (.failed off e) (s.answer off (.error e))

/-- No end of file is a fake: at that time the fill had not failed, it is
published or all its declared bytes are there, and the staged file never gets
longer than where the read stood. -/
def FollowKept (s : FollowState) : Prop :=
  ∀ x ∈ s.answers, x.result = .ok 0 → x.failed = false ∧
    (s.fill.phase.published = true ∨
      (0 < s.follow.declared ∧ s.follow.declared ≤ s.fill.size)) ∧
    s.fill.size ≤ x.off

/-- The calls that go right: no write after the declared bytes are there, and no
`access` that finds the marker gone when since the follower's `fstat` the fill
failed or wrote past the read's offset. -/
def FollowGood (s : FollowState) : FollowAct → Prop
  | .write _ => s.follow.declared = 0 ∨ s.fill.size < s.follow.declared
  | .access _ => ∀ off, s.call = .access off → s.fill.phase.marker = false →
      s.fill.phase ≠ .aborted ∧ s.fill.size ≤ off
  | _ => True

/-- A follower just opened on a fill in flight. -/
structure FollowState.Init (s : FollowState) : Prop where
  phase : s.fill.phase = .pumping
  frontier : s.follow.frontier ≤ s.fill.size
  call : s.call = .idle
  answers : s.answers = []

/-! ## The invariant -/

/-- What good calls keep. -/
structure FollowInv (s : FollowState) : Prop where
  kept : FollowKept s
  frontier : s.follow.frontier ≤ s.fill.size
  /-- a read that is about to happen is below the frontier -/
  pread : ∀ off len, s.call = .pread off len → 0 < len ∧ off < s.fill.size

variable {limit : ℕ} {s s' : FollowState} {a : FollowAct}

theorem FollowState.Init.inv (h : s.Init) : FollowInv s := by
  refine ⟨?_, h.frontier, ?_⟩
  · intro x hx
    rw [h.answers] at hx
    cases hx
  · intro off len hc
    rw [h.call] at hc
    cases hc

theorem followFrontier_frontier {f : CacheFollow} {size : ℕ} (h : f.frontier ≤ size) (now : ℕ) :
    (followFrontier f size now).frontier = size := by
  rw [followFrontier]
  by_cases hlt : f.frontier < size
  · rw [if_pos hlt]
  · rw [if_neg hlt]
    exact Nat.le_antisymm h (Nat.not_lt.mp hlt)

theorem followFrontier_declared (f : CacheFollow) (size now : ℕ) :
    (followFrontier f size now).declared = f.declared := by
  rw [followFrontier]
  split <;> rfl

theorem FollowKept.answer (h : FollowKept s) {off : ℕ} {r : Except Errno ℕ}
    (hnew : r = .ok 0 → s.fill.phase.nlink ≠ 0 ∧
      (s.fill.phase.published = true ∨
        (0 < s.follow.declared ∧ s.follow.declared ≤ s.fill.size)) ∧
      s.fill.size ≤ off) : FollowKept (s.answer off r) := by
  intro x hx heof
  rcases mem_cons.mp hx with rfl | hold
  · obtain ⟨hlink, hend, hoff⟩ := hnew heof
    exact ⟨decide_eq_false hlink, hend, hoff⟩
  · exact h x hold heof

theorem followAfterFstat_eq_eof {f : CacheFollow} {nlink off len : ℕ}
    (h : followAfterFstat f nlink off len = .inl (.ok 0)) :
    nlink ≠ 0 ∧ 0 < f.declared ∧ f.declared ≤ f.frontier ∧ f.frontier ≤ off := by
  rw [followAfterFstat] at h
  by_cases hoff : f.frontier ≤ off
  · rw [if_pos hoff, followAtFrontier] at h
    by_cases hlink : nlink = 0
    · rw [if_pos hlink] at h
      cases h
    · rw [if_neg hlink] at h
      by_cases hdecl : 0 < f.declared ∧ f.declared ≤ f.frontier
      · exact ⟨hlink, hdecl.1, hdecl.2, hoff⟩
      · rw [if_neg hdecl] at h
        cases h
  · rw [if_neg hoff] at h
    cases h

theorem followAfterFstat_eq_pread {f : CacheFollow} {nlink off len off' len' : ℕ}
    (hlen : 0 < len) (h : followAfterFstat f nlink off len = .inr (.pread off' len')) :
    0 < len' ∧ off' < f.frontier := by
  rw [followAfterFstat] at h
  by_cases hoff : f.frontier ≤ off
  · rw [if_pos hoff] at h
    split at h <;> cases h
  · rw [if_neg hoff] at h
    obtain ⟨rfl, rfl⟩ := FollowCall.pread.inj (Sum.inr.inj h)
    refine ⟨?_, Nat.not_le.mp hoff⟩
    split <;> omega

theorem followAfterAccess_eq_eof {f : CacheFollow} {present : Bool} {now : ℕ} :
    followAfterAccess limit f present now = .ok 0 ↔ present = false := by
  rw [followAfterAccess]
  cases present with
  | false => exact ⟨fun _ => rfl, fun _ => rfl⟩
  | true =>
    rw [if_neg Bool.true_eq_false.mp]
    split <;> exact ⟨(fun h => by cases h), (fun h => by cases h)⟩

/-- **One step** of the filler or of the follower keeps the invariant. -/
theorem FollowInv.step (h : FollowInv s) (hstep : FollowStep limit s a s')
    (hgood : FollowGood s a) : FollowInv s' := by
  cases hstep with
  | readChunk => exact ⟨h.kept, h.frontier, h.pread⟩
  | @write n hphase hpos hchunk =>
    refine ⟨?_, Nat.le_trans h.frontier (Nat.le_add_right _ _), ?_⟩
    · -- while the fill writes, nothing but the declared size ends a read
      intro x hx heof
      obtain ⟨-, hend, -⟩ := h.kept x hx heof
      rw [hphase] at hend
      rcases hend with hpub | ⟨hdecl, hle⟩
      · cases hpub
      · rcases hgood with hzero | hlt
        · omega
        · omega
    · intro off len hc
      obtain ⟨hlen, hoff⟩ := h.pread off len hc
      exact ⟨hlen, Nat.lt_of_lt_of_le hoff (Nat.le_add_right _ _)⟩
  | rename hphase hchunk hwhole | withdrawCommitted hphase =>
    refine ⟨?_, h.frontier, h.pread⟩
    intro x hx heof
    obtain ⟨hfail, -, hoff⟩ := h.kept x hx heof
    exact ⟨hfail, .inl rfl, hoff⟩
  | unlinkStaged hphase | withdrawAborted hphase =>
    refine ⟨?_, h.frontier, h.pread⟩
    intro x hx heof
    obtain ⟨hfail, hend, hoff⟩ := h.kept x hx heof
    rw [hphase] at hend
    rcases hend with hpub | hdecl
    · cases hpub
    · exact ⟨hfail, .inr hdecl, hoff⟩
  | @fstatVerdict off len now r hlen hidle hnext =>
    have hfront := followFrontier_frontier h.frontier now
    have hdeclared := followFrontier_declared s.follow s.fill.size now
    have hkept : FollowKept { s with follow := followFrontier s.follow s.fill.size now } := by
      intro x hx heof
      simp only [hdeclared]
      exact h.kept x hx heof
    refine ⟨hkept.answer ?_, Nat.le_of_eq hfront, fun off len hc => by cases hc⟩
    rintro rfl
    obtain ⟨hlink, hpos, hdecl, hoff⟩ := followAfterFstat_eq_eof hnext
    rw [hfront] at hdecl hoff
    exact ⟨hlink, .inr ⟨hpos, hdecl⟩, hoff⟩
  | @fstat off len now c hlen hidle hnext =>
    have hfront := followFrontier_frontier h.frontier now
    have hdeclared := followFrontier_declared s.follow s.fill.size now
    refine ⟨?_, Nat.le_of_eq hfront, ?_⟩
    · intro x hx heof
      simp only [hdeclared]
      exact h.kept x hx heof
    · intro off' len' hc
      simp only at hc
      subst hc
      obtain ⟨hlen', hoff⟩ := followAfterFstat_eq_pread hlen hnext
      exact ⟨hlen', hfront ▸ hoff⟩
  | @access off now hcall =>
    refine ⟨h.kept.answer ?_, h.frontier, fun off len hc => by cases hc⟩
    intro heof
    have hgone := followAfterAccess_eq_eof.mp heof
    obtain ⟨hne, hoff⟩ := hgood off hcall hgone
    -- the marker gone and the fill not failed: it is committed
    have hphase : s.fill.phase = .committed := by
      rcases hp : s.fill.phase with _ | _ | _ | _ | _
      · rw [hp] at hgone
        cases hgone
      · rw [hp] at hgone
        cases hgone
      · rw [hp] at hgone
        cases hgone
      · rfl
      · exact absurd hp hne
    rw [hphase]
    exact ⟨Nat.one_ne_zero, .inl rfl, hoff⟩
  | @pread off len hcall =>
    refine ⟨h.kept.answer ?_, h.frontier, fun off len hc => by cases hc⟩
    intro heof
    -- below the frontier there is a byte to read
    obtain ⟨hlen, hoff⟩ := h.pread off len hcall
    have hzero : min len (s.fill.size - off) = 0 := Except.ok.inj heof
    omega
  | failed off e =>
    refine ⟨h.kept.answer ?_, h.frontier, fun off len hc => by cases hc⟩
    rintro ⟨⟩

theorem not_followKept_of_bad {now : ℕ} (hstep : FollowStep limit s (.access now) s')
    (hbad : ¬ FollowGood s (.access now)) : ¬ FollowKept s' := by
  intro hkept
  cases hstep with
  | @access off _ hcall =>
    refine hbad fun off' hcall' hgone => ?_
    rw [hcall] at hcall'
    obtain rfl := FollowCall.access.inj hcall'
    obtain ⟨hfail, -, hoff⟩ := hkept _ mem_cons_self (followAfterAccess_eq_eof.mpr hgone)
    refine ⟨?_, hoff⟩
    intro hp
    have hlink : s.fill.phase.nlink = 0 := by
      rw [hp]
      rfl
    exact absurd hlink (of_decide_eq_false hfail)

theorem FollowInv.write_truncates (h : FollowInv s) {n : ℕ} (hidle : s.call = .idle)
    (hwrite : ∃ s', FollowStep limit s (.write n) s') (hbad : ¬ FollowGood s (.write n)) :
    ∃ s', Run (FollowStep limit) s [.fstat s.fill.size 1 0, .write n] s' ∧ ¬ FollowKept s' := by
  obtain ⟨s', hstep⟩ := hwrite
  simp only [FollowGood, not_or, Nat.not_lt] at hbad
  obtain ⟨hne, hle⟩ := hbad
  cases hstep with
  | write hphase hpos hchunk =>
    have hfront := followFrontier_frontier h.frontier 0
    have hdeclared := followFrontier_declared s.follow s.fill.size 0
    have hverdict : followAfterFstat (followFrontier s.follow s.fill.size 0)
        s.fill.phase.nlink s.fill.size 1 = .inl (.ok 0) := by
      rw [followAfterFstat, hfront, if_pos (Nat.le_refl _), followAtFrontier, hfront, hdeclared,
        hphase, if_neg (by decide), if_pos ⟨Nat.pos_of_ne_zero hne, hle⟩]
    refine ⟨_, .cons (.fstatVerdict Nat.one_pos hidle hverdict)
      (.cons (.write hphase hpos hchunk) (.nil _)), ?_⟩
    intro hkept
    obtain ⟨-, -, hoff⟩ := hkept _ mem_cons_self rfl
    have hlong : s.fill.size + n ≤ s.fill.size := hoff
    omega

/-! ## Runs -/

/-- The system restricted to good calls. -/
def FollowGoodStep (limit : ℕ) (s : FollowState) (a : FollowAct) (s' : FollowState) : Prop :=
  FollowStep limit s a s' ∧ FollowGood s a

theorem followInv_run {s₀ : FollowState} {as : List FollowAct} (hinit : s₀.Init)
    (hrun : Run (FollowGoodStep limit) s₀ as s) : FollowInv s :=
  hrun.invariant (fun _ _ _ h hstep => h.step hstep.1 hstep.2) hinit.inv

/-- **When an end of file is one.** In every run of good calls no end of file is
a fake. An `access` that is not good answers one, and a write that is not good
makes one of a read that had just ended where the write starts. -/
theorem followKept_iff_good {s₀ : FollowState} {as : List FollowAct} (hinit : s₀.Init)
    (hrun : Run (FollowGoodStep limit) s₀ as s) :
    FollowKept s ∧
      (∀ now s', FollowStep limit s (.access now) s' →
        (FollowKept s' ↔ FollowGood s (.access now))) ∧
      ∀ n s', s.call = .idle → FollowStep limit s (.write n) s' → ¬ FollowGood s (.write n) →
        ∃ s', Run (FollowStep limit) s [.fstat s.fill.size 1 0, .write n] s' ∧
          ¬ FollowKept s' := by
  have hinv := followInv_run hinit hrun
  refine ⟨hinv.kept, fun now s' hstep => ⟨?_, fun hgood => (hinv.step hstep hgood).kept⟩, ?_⟩
  · intro hkept
    exact Classical.byContradiction fun hbad => not_followKept_of_bad hstep hbad hkept
  · intro n s' hidle hstep hbad
    exact hinv.write_truncates hidle ⟨s', hstep⟩ hbad

/-- A fill of an unknown size, with four bytes of it read from the source, and a
follower just opened. -/
def sampleFollowState : FollowState := ⟨⟨.pumping, 0, 4, 0⟩, ⟨0, 0, 0⟩, .idle, []⟩

theorem sampleFollowState_init : sampleFollowState.Init := ⟨rfl, Nat.le_refl _, rfl, rfl⟩

theorem followKept_iff_good_sample :
    ∃ s, Run (FollowGoodStep 5) sampleFollowState
        [.write 2, .fstat 2 8 0, .access 0, .write 2, .rename, .withdraw, .fstat 4 8 0,
          .access 0] s ∧
      FollowKept s ∧
      (∀ now s', FollowStep 5 s (.access now) s' →
        (FollowKept s' ↔ FollowGood s (.access now))) ∧
      ∀ n s', s.call = .idle → FollowStep 5 s (.write n) s' → ¬ FollowGood s (.write n) →
        ∃ s', Run (FollowStep 5) s [.fstat s.fill.size 1 0, .write n] s' ∧ ¬ FollowKept s' := by
  have hrun : ∃ s, Run (FollowGoodStep 5) sampleFollowState
      [.write 2, .fstat 2 8 0, .access 0, .write 2, .rename, .withdraw, .fstat 4 8 0,
        .access 0] s := by
    refine ⟨_, .cons ⟨.write rfl (by decide) (by decide), .inl rfl⟩
      (.cons ⟨.fstat (by decide) rfl rfl, trivial⟩ (.cons ⟨.access rfl, ?_⟩
        (.cons ⟨.write rfl (by decide) (by decide), .inl rfl⟩
          (.cons ⟨.rename rfl rfl (fun h => by cases h), trivial⟩
            (.cons ⟨.withdrawCommitted rfl, trivial⟩
              (.cons ⟨.fstat (by decide) rfl rfl, trivial⟩
                (.cons ⟨.access rfl, ?_⟩ (.nil _))))))))⟩
    · rintro off - ⟨⟩
    · rintro off ⟨⟩ -
      exact ⟨by decide, Nat.le_refl _⟩
  obtain ⟨s, hs⟩ := hrun
  exact ⟨s, hs, followKept_iff_good sampleFollowState_init hs⟩

/-- Between the follower's `fstat` and its `access` the fill writes two more
bytes and commits, or fails: either way the read at offset two ends. -/
theorem window_fakes_eof :
    (∃ s, Run (FollowStep 5) sampleFollowState
        [.write 2, .fstat 2 8 0, .write 2, .rename, .withdraw, .access 0] s ∧
      (∃ xs, s.answers = ⟨2, .ok 0, false⟩ :: xs) ∧ s.fill.size = 4 ∧ ¬ FollowKept s) ∧
    ∃ s, Run (FollowStep 5) sampleFollowState
        [.write 2, .fstat 2 8 0, .unlinkStaged, .withdraw, .access 0] s ∧
      (∃ xs, s.answers = ⟨2, .ok 0, true⟩ :: xs) ∧ s.fill.phase = .aborted ∧
      ¬ FollowKept s := by
  refine ⟨⟨_, .cons (.write rfl (by decide) (by decide)) (.cons (.fstat (by decide) rfl rfl)
    (.cons (.write rfl (by decide) (by decide)) (.cons (.rename rfl rfl (fun h => by cases h))
      (.cons (.withdrawCommitted rfl) (.cons (.access rfl) (.nil _)))))), ⟨_, rfl⟩, rfl, ?_⟩,
    ⟨_, .cons (.write rfl (by decide) (by decide)) (.cons (.fstat (by decide) rfl rfl)
      (.cons (.unlinkStaged rfl) (.cons (.withdrawAborted rfl) (.cons (.access rfl) (.nil _))))),
      ⟨_, rfl⟩, rfl, ?_⟩⟩
  · intro hkept
    obtain ⟨-, -, hoff⟩ := hkept _ mem_cons_self rfl
    exact absurd hoff (by decide)
  · intro hkept
    obtain ⟨hfail, -, -⟩ := hkept _ mem_cons_self rfl
    cases hfail

end BrixCache
