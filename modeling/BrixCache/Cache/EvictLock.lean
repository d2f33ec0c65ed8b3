import BrixCache.Lib.Run
import Mathlib.Data.Int.Notation

/-!
# The eviction lock

`fs/cache/evict_candidates.c`: `brix_cache_try_evict_lock` and
`brix_cache_evict_unlock` of any number of workers on one sentinel file. Every
file-system call is one step of the worker that makes it — the exclusive create,
the `stat`, the `unlink` and the second create of a takeover — and so is the
reading of the clock between them. A worker may crash between any two; its
sentinel stays.

A sentinel carries which creation it is, so that a worker's own can be told from
one that came after it under the same name.
-/

namespace BrixCache

/-- A sentinel file: which creation, and its mtime. -/
structure Sentinel : Type where
  birth : ℕ
  mtime : ℤ
  deriving DecidableEq

/-- `brix_cache_try_evict_lock`'s test of a sentinel at time `now`. -/
def evictLockStale (timeout now : ℤ) (st : Sentinel) : Bool :=
  !(decide (now ≤ st.mtime) || decide (now - st.mtime ≤ timeout))

/-- Where a worker is between its try and its unlock -/
inductive EvictPhase : Type where
  | idle : EvictPhase
  /-- its create found a sentinel -/
  | taken : EvictPhase
  /-- it has read the sentinel's mtime -/
  | statted : Sentinel → EvictPhase
  | stale : Sentinel → EvictPhase
  | removed : EvictPhase
  /-- between a successful try and its unlock, with the sentinel it created -/
  | holding : Sentinel → EvictPhase
  deriving DecidableEq

/-- The lock file, the clock and the workers. -/
structure EvictLock (W : Type) : Type where
  sentinel : Option Sentinel
  births : ℕ
  now : ℤ
  phase : W → EvictPhase

/-- A call of a worker, or time. -/
inductive EvictAct (W : Type) : Type where
  /-- `open` with `O_CREAT | O_EXCL` -/
  | create : W → EvictAct W
  | stat : W → EvictAct W
  /-- `time(NULL)` and the test -/
  | time : W → EvictAct W
  /-- the takeover's `unlink` -/
  | unlink : W → EvictAct W
  /-- a call that fails, whatever the reason: the worker declines or errs -/
  | decline : W → EvictAct W
  /-- `brix_cache_evict_unlock` -/
  | unlock : W → EvictAct W
  | crash : W → EvictAct W
  | tick : ℤ → EvictAct W

variable {W : Type} {timeout : ℤ}

/-- The sentinel the next create makes. -/
def EvictLock.fresh (s : EvictLock W) : Sentinel := ⟨s.births, s.now⟩

/-- The worker `w` moves to a phase. -/
def EvictLock.setPhase [DecidableEq W] (s : EvictLock W) (w : W) (p : EvictPhase) : EvictLock W :=
  { s with phase := Function.update s.phase w p }

/-- The create of `w` succeeds. -/
def EvictLock.createBy [DecidableEq W] (s : EvictLock W) (w : W) : EvictLock W :=
  { s.setPhase w (.holding s.fresh) with sentinel := some s.fresh, births := s.births + 1 }

/-- One system call of a worker, or a crash -/
inductive EvictStep [DecidableEq W] (timeout : ℤ) : EvictLock W → EvictAct W → EvictLock W → Prop where
  | create {s : EvictLock W} {w : W} (hphase : s.phase w = .idle ∨ s.phase w = .removed)
      (hfree : s.sentinel = none) : EvictStep timeout s (.create w) (s.createBy w)
  /-- `EEXIST` -/
  | createTaken {s : EvictLock W} {w : W} (hphase : s.phase w = .idle)
      (htaken : s.sentinel ≠ none) : EvictStep timeout s (.create w) (s.setPhase w .taken)
  | stat {s : EvictLock W} {w : W} {st : Sentinel} (hphase : s.phase w = .taken)
      (hst : s.sentinel = some st) : EvictStep timeout s (.stat w) (s.setPhase w (.statted st))
  | timeFresh {s : EvictLock W} {w : W} {st : Sentinel} (hphase : s.phase w = .statted st)
      (hfresh : evictLockStale timeout s.now st = false) :
      EvictStep timeout s (.time w) (s.setPhase w .idle)
  | timeStale {s : EvictLock W} {w : W} {st : Sentinel} (hphase : s.phase w = .statted st)
      (hstale : evictLockStale timeout s.now st = true) :
      EvictStep timeout s (.time w) (s.setPhase w (.stale st))
  /-- also when the sentinel is gone already: `ENOENT` is no error -/
  | unlink {s : EvictLock W} {w : W} {st : Sentinel} (hphase : s.phase w = .stale st) :
      EvictStep timeout s (.unlink w) { s.setPhase w .removed with sentinel := none }
  /-- the first create, the `stat`, the `unlink` or the second create fails -/
  | decline {s : EvictLock W} {w : W} (hphase : ∀ st, s.phase w ≠ .holding st) :
      EvictStep timeout s (.decline w) (s.setPhase w .idle)
  | unlock {s : EvictLock W} {w : W} {st : Sentinel} (hphase : s.phase w = .holding st) :
      EvictStep timeout s (.unlock w) { s.setPhase w .idle with sentinel := none }
  /-- the process is gone, and one that knows nothing takes its place; an unlock whose `unlink`
  fails leaves the same behind -/
  | crash (s : EvictLock W) (w : W) : EvictStep timeout s (.crash w) (s.setPhase w .idle)
  | tick (s : EvictLock W) (t : ℤ) : EvictStep timeout s (.tick t) { s with now := t }

/-- A worker is between its try and its unlock. -/
def EvictLock.Holds (s : EvictLock W) (w : W) : Prop := ∃ st, s.phase w = .holding st

/-- **Mutual exclusion**: one holder at a time. -/
def EvictLock.Exclusive (s : EvictLock W) : Prop := ∀ w w', s.Holds w → s.Holds w' → w = w'

/-- No live holder has kept the lock longer than the timeout. -/
def EvictLock.Timely (timeout : ℤ) (s : EvictLock W) : Prop :=
  ∀ w st, s.phase w = .holding st → s.now - st.mtime ≤ timeout

/-- The steps that go right: a takeover does not unlink the sentinel of a live
holder that came after the one it found stale. -/
def EvictGood (s : EvictLock W) : EvictAct W → Prop
  | .unlink w => ∀ st st', s.phase w = .stale st → s.sentinel = some st' → st' ≠ st →
      ∀ w', s.phase w' ≠ .holding st'
  | _ => True

/-- Nobody is inside; a sentinel may be left behind. -/
structure EvictLock.Init (s : EvictLock W) : Prop where
  idle : ∀ w, s.phase w = .idle
  born : ∀ st, s.sentinel = some st → st.birth < s.births

/-! ## The invariant -/

/-- What good, timely steps keep. -/
structure EvictInv (s : EvictLock W) : Prop where
  held : ∀ w st, s.phase w = .holding st → s.sentinel = some st
  exclusive : s.Exclusive
  born : ∀ st, s.sentinel = some st → st.birth < s.births
  /-- what a worker has read was there -/
  seen : ∀ w st, s.phase w = .statted st ∨ s.phase w = .stale st → st.birth < s.births
  /-- a sentinel found stale is of no live holder -/
  dead : ∀ w st, s.phase w = .stale st → ∀ w', s.phase w' ≠ .holding st

variable {s s' : EvictLock W} {a : EvictAct W}

theorem EvictLock.Init.inv (h : s.Init) : EvictInv s where
  held w st hw := by
    rw [h.idle w] at hw
    cases hw
  exclusive := by
    rintro w w' ⟨st, hw⟩
    rw [h.idle w] at hw
    cases hw
  born := h.born
  seen w st hw := by
    rw [h.idle w] at hw
    rcases hw with hw | hw <;> cases hw
  dead w st hw := by
    rw [h.idle w] at hw
    cases hw

theorem EvictInv.remove (h : EvictInv s) (hnone : ∀ w, ¬ s.Holds w) :
    EvictInv { s with sentinel := none } where
  held w st hw := absurd ⟨st, hw⟩ (hnone w)
  exclusive := h.exclusive
  born := by rintro st ⟨⟩
  seen := h.seen
  dead := h.dead

variable [DecidableEq W]

theorem EvictLock.setPhase_cases (s : EvictLock W) (w v : W) (p : EvictPhase) :
    (v = w ∧ (s.setPhase w p).phase v = p) ∨
      (v ≠ w ∧ (s.setPhase w p).phase v = s.phase v) := by
  rcases eq_or_ne v w with rfl | hne
  · exact .inl ⟨rfl, by simp [EvictLock.setPhase]⟩
  · exact .inr ⟨hne, by simp [EvictLock.setPhase, hne]⟩

theorem EvictLock.holding_setPhase {w v : W} {p : EvictPhase} {st : Sentinel}
    (hp : ∀ st, p ≠ .holding st) (h : (s.setPhase w p).phase v = .holding st) :
    v ≠ w ∧ s.phase v = .holding st := by
  rcases s.setPhase_cases w v p with ⟨rfl, hv⟩ | ⟨hne, hv⟩
  · exact absurd (hv.symm.trans h) (hp st)
  · exact ⟨hne, hv.symm.trans h⟩

/-- **A worker moves**, not into the lock: the invariant asks that what it has
read was there, and of what it found stale that nobody holds it. -/
theorem EvictInv.setPhase (h : EvictInv s) {w : W} {p : EvictPhase}
    (hp : ∀ st, p ≠ .holding st)
    (hseen : ∀ st, p = .statted st ∨ p = .stale st → st.birth < s.births)
    (hdead : ∀ st, p = .stale st → ∀ w', s.phase w' ≠ .holding st) :
    EvictInv (s.setPhase w p) where
  held v st hv := h.held v st (EvictLock.holding_setPhase hp hv).2
  exclusive := by
    rintro v v' ⟨st, hv⟩ ⟨st', hv'⟩
    exact h.exclusive v v' ⟨st, (EvictLock.holding_setPhase hp hv).2⟩
      ⟨st', (EvictLock.holding_setPhase hp hv').2⟩
  born := h.born
  seen v st hv := by
    rcases s.setPhase_cases w v p with ⟨rfl, hq⟩ | ⟨-, hq⟩
    · rw [hq] at hv
      exact hseen st hv
    · rw [hq] at hv
      exact h.seen v st hv
  dead v st hv v' hv' := by
    obtain ⟨-, hold⟩ := EvictLock.holding_setPhase hp hv'
    rcases s.setPhase_cases w v p with ⟨rfl, hq⟩ | ⟨-, hq⟩
    · exact hdead st (hq.symm.trans hv) v' hold
    · exact h.dead v st (hq.symm.trans hv) v' hold

/-- A sentinel that is created where none is -/
theorem EvictInv.createBy (h : EvictInv s) (w : W) (hfree : s.sentinel = none) :
    EvictInv (s.createBy w) := by
  have hnone : ∀ v st, s.phase v ≠ .holding st := by
    intro v st hv
    have hin := h.held v st hv
    rw [hfree] at hin
    cases hin
  -- the only holder is `w`
  have honly : ∀ v st, (s.createBy w).phase v = .holding st → v = w ∧ st = s.fresh := by
    intro v st hv
    rcases s.setPhase_cases w v (.holding s.fresh) with ⟨rfl, hq⟩ | ⟨-, hq⟩
    · exact ⟨rfl, (EvictPhase.holding.inj (hq.symm.trans hv)).symm⟩
    · exact absurd (hq.symm.trans hv) (hnone v st)
  have hold : ∀ v st, (s.createBy w).phase v = .statted st ∨ (s.createBy w).phase v = .stale st →
      st.birth < s.births := by
    intro v st hv
    rcases s.setPhase_cases w v (.holding s.fresh) with ⟨rfl, hq⟩ | ⟨-, hq⟩
    · have hv' : (s.setPhase v (.holding s.fresh)).phase v = .statted st ∨
          (s.setPhase v (.holding s.fresh)).phase v = .stale st := hv
      rw [hq] at hv'
      rcases hv' with hv' | hv' <;> cases hv'
    · have hv' : (s.setPhase w (.holding s.fresh)).phase v = .statted st ∨
          (s.setPhase w (.holding s.fresh)).phase v = .stale st := hv
      rw [hq] at hv'
      exact h.seen v st hv'
  refine ⟨?_, ?_, ?_, ?_, ?_⟩
  · intro v st hv
    rw [(honly v st hv).2]
    rfl
  · rintro v v' ⟨st, hv⟩ ⟨st', hv'⟩
    exact (honly v st hv).1.trans (honly v' st' hv').1.symm
  · intro st hst
    cases hst
    exact Nat.lt_succ_self _
  · intro v st hv
    exact Nat.lt_succ_of_lt (hold v st hv)
  · intro v st hv v' hv'
    have hlt := hold v st (.inr hv)
    rw [(honly v' st hv').2] at hlt
    exact Nat.lt_irrefl _ hlt

/-- **One step** that meets the condition keeps the invariant. -/
theorem EvictInv.step (h : EvictInv s) (hstep : EvictStep timeout s a s')
    (htime : s.Timely timeout) (hgood : EvictGood s a) : EvictInv s' := by
  cases hstep with
  | create hphase hfree => exact h.createBy _ hfree
  | createTaken hphase htaken | timeFresh hphase hfresh | decline hphase | crash w =>
    exact h.setPhase (by simp) (by simp) (by simp)
  | stat hphase hst =>
    refine h.setPhase (by simp) ?_ (by simp)
    rintro st (hp | hp)
    · obtain rfl := EvictPhase.statted.inj hp
      exact h.born _ hst
    · cases hp
  | timeStale hphase hstale =>
    refine h.setPhase (by simp) ?_ ?_
    · rintro st (hp | hp)
      · cases hp
      · obtain rfl := EvictPhase.stale.inj hp
        exact h.seen _ _ (.inl hphase)
    · -- a live holder would be over its time
      intro st hp w' hw'
      obtain rfl := EvictPhase.stale.inj hp
      have hle := htime w' _ hw'
      simp [evictLockStale] at hstale
      omega
  | @unlink w st hphase =>
    have hnone : ∀ v, ¬ s.Holds v := by
      rintro v ⟨st', hv⟩
      have hin := h.held v st' hv
      rcases eq_or_ne st' st with rfl | hne
      · exact h.dead w st' hphase v hv
      · exact hgood st st' hphase hin hne v hv
    exact (h.remove hnone).setPhase (by simp) (by simp) (by simp)
  | @unlock w st hphase =>
    have hmove : EvictInv (s.setPhase w .idle) := h.setPhase (by simp) (by simp) (by simp)
    refine hmove.remove ?_
    rintro v ⟨st', hv⟩
    obtain ⟨hne, hold⟩ := EvictLock.holding_setPhase (by simp) hv
    exact hne (h.exclusive v w ⟨st', hold⟩ ⟨st, hphase⟩)
  | tick t => exact ⟨h.held, h.exclusive, h.born, h.seen, h.dead⟩

/-- **The converse**: after a bad unlink a second worker can get in. -/
theorem EvictLock.not_exclusive_of_bad (hstep : EvictStep timeout s a s')
    (hbad : ¬ EvictGood s a) :
    ∃ w s'', EvictStep timeout s' (.create w) s'' ∧ ¬ s''.Exclusive ∧
      (0 ≤ timeout → s'.Timely timeout → s''.Timely timeout) := by
  cases hstep with
  | create | createTaken | stat | timeFresh | timeStale | decline | unlock | crash | tick =>
    exact absurd trivial hbad
  | @unlink w st hphase =>
    have hex : ∃ w' st', s.phase w' = .holding st' := by
      refine Classical.byContradiction fun hno => hbad ?_
      intro _ st' _ _ _ w' hw'
      exact hno ⟨w', st', hw'⟩
    obtain ⟨w', st', hw'⟩ := hex
    have hne : w' ≠ w := by
      rintro rfl
      rw [hphase] at hw'
      cases hw'
    let s₁ : EvictLock W := { s.setPhase w .removed with sentinel := none }
    have hfree : EvictStep timeout s₁ (.create w) (s₁.createBy w) :=
      .create (.inr (by simp [s₁, EvictLock.setPhase])) rfl
    refine ⟨w, s₁.createBy w, hfree, ?_, ?_⟩
    · intro hex
      refine hne (hex w' w ⟨st', ?_⟩ ⟨s₁.fresh, ?_⟩)
      · simp [s₁, EvictLock.createBy, EvictLock.setPhase, hne, hw']
      · simp [EvictLock.createBy, EvictLock.setPhase]
    · intro hpos htime v st hv
      rcases s₁.setPhase_cases w v (.holding s₁.fresh) with ⟨rfl, hq⟩ | ⟨-, hq⟩
      · obtain rfl := EvictPhase.holding.inj (hq.symm.trans hv)
        simpa [EvictLock.fresh, EvictLock.createBy, EvictLock.setPhase] using hpos
      · exact htime v st (hq.symm.trans hv)

/-! ## Runs -/

/-- The system while every live holder keeps its time. -/
def EvictTimelyStep (timeout : ℤ) (s : EvictLock W) (a : EvictAct W) (s' : EvictLock W) : Prop :=
  EvictStep timeout s a s' ∧ s.Timely timeout

/-- A timely step that meets the condition -/
def EvictGoodStep (timeout : ℤ) (s : EvictLock W) (a : EvictAct W) (s' : EvictLock W) : Prop :=
  EvictTimelyStep timeout s a s' ∧ EvictGood s a

theorem evictInv_run {s₀ : EvictLock W} {as : List (EvictAct W)} (hinit : s₀.Init)
    (hrun : Run (EvictGoodStep timeout) s₀ as s) : EvictInv s :=
  hrun.invariant (fun _ _ _ h hstep => h.step hstep.1.1 hstep.1.2 hstep.2) hinit.inv

/-- **When the eviction lock excludes.** In every run in which no takeover
unlinks the sentinel of a live holder that came after the one it found stale,
at most one live worker holds the lock; and after the first takeover that does,
its own create puts a second holder beside the first. -/
theorem evictExclusive_of_good {s₀ : EvictLock W} {as : List (EvictAct W)} (hinit : s₀.Init)
    (hrun : Run (EvictGoodStep timeout) s₀ as s) :
    s.Exclusive ∧ ∀ a s', EvictStep timeout s a s' → ¬ EvictGood s a →
      ∃ w s'', EvictStep timeout s' (.create w) s'' ∧ ¬ s''.Exclusive ∧
        (0 ≤ timeout → s'.Timely timeout → s''.Timely timeout) :=
  ⟨(evictInv_run hinit hrun).exclusive, fun _ _ hstep hbad =>
    EvictLock.not_exclusive_of_bad hstep hbad⟩

/-- Two workers outside, at time 100, and a sentinel left at time 0. -/
def sampleEvictLock : EvictLock Bool := ⟨some ⟨0, 0⟩, 1, 100, fun _ => .idle⟩

theorem sampleEvictLock_init : sampleEvictLock.Init where
  idle _ := rfl
  born st hst := by
    cases hst
    exact Nat.one_pos

/-- One worker takes the stale lock over. -/
theorem evictExclusive_of_good_sample :
    ∃ s : EvictLock Bool, Run (EvictGoodStep 60) sampleEvictLock
        [.create true, .stat true, .time true, .unlink true, .create true] s ∧
      s.Exclusive := by
  have hrun : ∃ s : EvictLock Bool, Run (EvictGoodStep 60) sampleEvictLock
      [.create true, .stat true, .time true, .unlink true, .create true] s := by
    refine ⟨_, .cons ⟨⟨.createTaken rfl (by simp [sampleEvictLock]), ?_⟩, trivial⟩
      (.cons ⟨⟨.stat rfl rfl, ?_⟩, trivial⟩ (.cons ⟨⟨.timeStale rfl rfl, ?_⟩, trivial⟩
        (.cons ⟨⟨.unlink rfl, ?_⟩, ?_⟩ (.cons ⟨⟨.create (.inr rfl) rfl, ?_⟩, trivial⟩ (.nil _)))))⟩
    case refine_5 =>
      rintro st st' hst ⟨⟩ hne
      exact absurd (EvictPhase.stale.inj hst) hne
    all_goals
      intro w st hw
      cases w <;> cases hw
  obtain ⟨s, hs⟩ := hrun
  exact ⟨s, hs, (evictExclusive_of_good sampleEvictLock_init hs).1⟩

/-- Two workers find the same leftover sentinel stale; the first takes the lock
over, and the second then removes the first one's sentinel and takes it too. -/
theorem two_breakers_hold :
    ∃ s : EvictLock Bool, Run (EvictTimelyStep 60) sampleEvictLock
        [.create true, .create false, .stat true, .stat false, .time true, .time false,
          .unlink true, .create true, .unlink false, .create false] s ∧
      s.Timely 60 ∧ ¬ s.Exclusive := by
  have hrun : ∃ s : EvictLock Bool, Run (EvictTimelyStep 60) sampleEvictLock
      [.create true, .create false, .stat true, .stat false, .time true, .time false,
        .unlink true, .create true, .unlink false, .create false] s ∧
      s.phase true = .holding ⟨1, 100⟩ ∧ s.phase false = .holding ⟨2, 100⟩ ∧ s.now = 100 := by
    refine ⟨_, .cons ⟨.createTaken rfl (by simp [sampleEvictLock]), ?_⟩
      (.cons ⟨.createTaken rfl (by simp [sampleEvictLock, EvictLock.setPhase]), ?_⟩
        (.cons ⟨.stat rfl rfl, ?_⟩ (.cons ⟨.stat rfl rfl, ?_⟩ (.cons ⟨.timeStale rfl rfl, ?_⟩
          (.cons ⟨.timeStale rfl rfl, ?_⟩ (.cons ⟨.unlink rfl, ?_⟩
            (.cons ⟨.create (.inr rfl) rfl, ?_⟩ (.cons ⟨.unlink rfl, ?_⟩
              (.cons ⟨.create (.inr rfl) rfl, ?_⟩ (.nil _)))))))))), rfl, rfl, rfl⟩
    all_goals
      intro w st hw
      cases w <;> cases hw
    all_goals decide
  obtain ⟨s, hs, htrue, hfalse, hnow⟩ := hrun
  refine ⟨s, hs, ?_, ?_⟩
  · intro w st hw
    cases w
    · rw [hfalse] at hw
      obtain rfl := EvictPhase.holding.inj hw
      rw [hnow]
      decide
    · rw [htrue] at hw
      obtain rfl := EvictPhase.holding.inj hw
      rw [hnow]
      decide
  · intro hex
    cases hex true false ⟨_, htrue⟩ ⟨_, hfalse⟩

end BrixCache
