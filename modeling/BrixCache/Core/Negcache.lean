import Mathlib.Algebra.Group.Nat.Defs
import Mathlib.Data.List.Basic
import Mathlib.Data.List.Induction

/-!
# The negative-lookup limiter

`core/negcache/negcache_core.c`: a table of slots, one for the principals whose hash comes to it.
A slot counts the misses of its principal in a window; from the threshold on a miss is served once
in a backoff interval, and each other one is told to wait. The times are milliseconds.
-/

namespace BrixCache

/-- `brix_negcache_slot_t` -/
structure NegcacheSlot : Type where
  key : UInt32
  misses : UInt32
  windowMs : UInt64
  servedMs : UInt64
  deriving DecidableEq

/-- A slot of a table that was just made -/
def NegcacheSlot.empty : NegcacheSlot := ⟨0, 0, 0, 0⟩

/-- The three settings of the limiter -/
structure NegcacheParams : Type where
  threshold : UInt32
  windowMs : UInt32
  backoffS : UInt32
  deriving DecidableEq

/-- The hash of a principal, of which none is the one of an empty slot -/
def negcacheKey (keyHash : UInt32) : UInt32 := if keyHash = 0 then 1 else keyHash

/-- The index of its slot -/
def negcacheIdx (nslots : ℕ) (keyHash : UInt32) : ℕ := (negcacheKey keyHash).toNat % nslots

/-- Does the slot begin a window? It is empty or another's, the clock ran backwards, or the window
is over. -/
def NegcacheSlot.stale (p : NegcacheParams) (key : UInt32) (now : UInt64) (s : NegcacheSlot) :
    Bool :=
  s.key ≠ key || now < s.windowMs || p.windowMs.toUInt64 ≤ now - s.windowMs

def NegcacheParams.backoffMs (p : NegcacheParams) : UInt64 := p.backoffS.toUInt64 * 1000

/-- The slot after one more miss of the key. -/
def NegcacheSlot.charged (p : NegcacheParams) (key : UInt32) (now : UInt64) (s : NegcacheSlot) :
    NegcacheSlot :=
  let s := if s.stale p key now then ⟨key, 0, now, 0⟩ else s
  if s.misses < 4294967295 then { s with misses := s.misses + 1 } else s

/-- What `brix_negcache_core_note` does with the slot of the principal -/
def NegcacheSlot.note (p : NegcacheParams) (key : UInt32) (now : UInt64) (s : NegcacheSlot) :
    NegcacheSlot × UInt32 :=
  let s := s.charged p key now
  if s.misses < p.threshold then (s, 0)
  else if s.servedMs = 0 ∨ now < s.servedMs ∨ p.backoffMs ≤ now - s.servedMs then
    ({ s with servedMs := now }, 0)
  else (s, p.backoffS)

/-- `brix_negcache_core_note`; a table without slots stands for one that is missing. -/
def negcacheCoreNote (p : NegcacheParams) (slots : List NegcacheSlot) (keyHash : UInt32)
    (now : UInt64) : List NegcacheSlot × UInt32 :=
  if slots = [] ∨ p.threshold = 0 ∨ p.windowMs = 0 then (slots, 0)
  else
    let idx := negcacheIdx slots.length keyHash
    let noted := (slots.getD idx .empty).note p (negcacheKey keyHash) now
    (slots.set idx noted.1, noted.2)

/-! ## Runs -/

/-- A call: the hash of the principal and the time -/
abbrev NegcacheCall : Type := UInt32 × UInt64

/-- What a sequence of calls is answered, each answer with its call -/
def negcacheRun (p : NegcacheParams) : List NegcacheSlot → List NegcacheCall →
    List (NegcacheCall × UInt32)
  | _, [] => []
  | slots, call :: calls =>
    (call, (negcacheCoreNote p slots call.1 call.2).2) ::
      negcacheRun p (negcacheCoreNote p slots call.1 call.2).1 calls

/-- The misses of one principal with their answers, in a table of so many slots -/
def negcacheMisses (p : NegcacheParams) (nslots : ℕ) (keyHash : UInt32)
    (calls : List NegcacheCall) : List (UInt64 × UInt32) :=
  ((negcacheRun p (List.replicate nslots .empty) calls).filter fun x => x.1.1 = keyHash).map
    fun x => (x.1.2, x.2)

/-- The same on a slot alone: the misses with their answers so far, and the slot -/
def NegcacheSlot.noted (p : NegcacheParams) (key : UInt32) (s : NegcacheSlot)
    (times : List UInt64) : List (UInt64 × UInt32) × NegcacheSlot :=
  times.foldl (fun st now => (st.1 ++ [(now, (st.2.note p key now).2)], (st.2.note p key now).1))
    ([], s)

/-! ## Windows -/

def missStep (windowMs : ℕ) (w : Option (ℕ × ℕ)) (now : ℕ) : Option (ℕ × ℕ) :=
  match w with
  | none => some (now, 1)
  | some (start, number) =>
    if windowMs ≤ now - start then some (now, 1) else some (start, number + 1)

/-- Those of the last miss -/
def missWindow (p : NegcacheParams) (misses : List (UInt64 × UInt32)) : Option (ℕ × ℕ) :=
  misses.foldl (fun w x => missStep p.windowMs.toNat w x.1.toNat) none

/-- The limiter is fair to a principal and paces it: the first misses of a window are served, two
of one window that are served from number `armed` on are an interval apart, a miss that comes an
interval after the last one that was served is served, and one that is not served is told to wait
for an interval. -/
structure NegcacheFair (p : NegcacheParams) (armed : ℕ) (misses : List (UInt64 × UInt32)) :
    Prop where
  first : ∀ pre t a start number, pre ++ [(t, a)] <+: misses →
    missWindow p (pre ++ [(t, a)]) = some (start, number) → number ≤ p.threshold.toNat → a = 0
  paced : ∀ pre t mid t' start number number', pre ++ (t, 0) :: (mid ++ [(t', 0)]) <+: misses →
    missWindow p (pre ++ [(t, 0)]) = some (start, number) →
    missWindow p (pre ++ (t, 0) :: (mid ++ [(t', 0)])) = some (start, number') →
    armed ≤ number → p.backoffS.toNat * 1000 ≤ t'.toNat - t.toNat
  served : ∀ pre t mid t' a, pre ++ (t, 0) :: (mid ++ [(t', a)]) <+: misses →
    (∀ x ∈ mid, x.2 ≠ 0) → p.backoffS.toNat * 1000 ≤ t'.toNat - t.toNat → a = 0
  wait : ∀ x ∈ misses, x.2 = 0 ∨ x.2 = p.backoffS

/-- No miss comes sooner than an interval after one at time zero that has the number `armed` or a
higher one. -/
def NegcacheUnarmedAtZero (p : NegcacheParams) (armed : ℕ) (times : List UInt64) : Prop :=
  ∀ pre mid t, pre ++ 0 :: (mid ++ [t]) <+: times → armed ≤ pre.length + 1 →
    p.backoffS.toNat * 1000 ≤ t.toNat

end BrixCache

/-!
## The limiter over a run

What the slot of a principal holds after a run of misses is the window of the last of them and,
once the limiter is armed, the time of the last one that was served (`NegcacheHeld`). A zero stands
for "none" there.
-/

namespace BrixCache

open List

variable {p : NegcacheParams} {key keyHash : UInt32} {s : NegcacheSlot} {t : UInt64}
  {times : List UInt64} {misses : List (UInt64 × UInt32)} {start number nslots : ℕ}

/-! ### The slot of a principal -/

theorem NegcacheSlot.noted_snoc (p : NegcacheParams) (key : UInt32) (s : NegcacheSlot)
    (times : List UInt64) (t : UInt64) :
    s.noted p key (times ++ [t]) =
      ((s.noted p key times).1 ++ [(t, ((s.noted p key times).2.note p key t).2)],
        ((s.noted p key times).2.note p key t).1) := by
  simp [noted, foldl_append]

theorem NegcacheSlot.noted_cons (p : NegcacheParams) (key : UInt32) (s : NegcacheSlot)
    (t : UInt64) (times : List UInt64) :
    (s.noted p key (t :: times)).1 =
      (t, (s.note p key t).2) :: ((s.note p key t).1.noted p key times).1 := by
  induction times using reverseRecOn with
  | nil => rfl
  | append_singleton times t' ih =>
    have hstate : (s.noted p key (t :: times)).2 = ((s.note p key t).1.noted p key times).2 := by
      clear ih
      induction times using reverseRecOn with
      | nil => rfl
      | append_singleton times t' ih =>
        rw [← cons_append, noted_snoc, noted_snoc, ih]
    rw [← cons_append, noted_snoc, noted_snoc, ih, hstate]
    rfl

/-- The answers to a principal alone in its slot are those of that slot. -/
theorem negcacheRun_mine (hthreshold : p.threshold ≠ 0) (hwindow : p.windowMs ≠ 0)
    (slots : List NegcacheSlot) (calls : List NegcacheCall) (hslots : slots ≠ [])
    (hothers : ∀ call ∈ calls, call.1 ≠ keyHash →
      negcacheIdx slots.length call.1 ≠ negcacheIdx slots.length keyHash) :
    ((negcacheRun p slots calls).filter fun x => x.1.1 = keyHash).map (fun x => (x.1.2, x.2)) =
      ((slots.getD (negcacheIdx slots.length keyHash) .empty).noted p (negcacheKey keyHash)
        ((calls.filter fun call => call.1 = keyHash).map Prod.snd)).1 := by
  induction calls generalizing slots with
  | nil => rfl
  | cons call calls ih =>
    have hpos : 0 < slots.length := length_pos_iff.mpr hslots
    have hno : ¬(slots = [] ∨ p.threshold = 0 ∨ p.windowMs = 0) := by
      rintro (h | h | h)
      · exact hslots h
      · exact hthreshold h
      · exact hwindow h
    have hnote : negcacheCoreNote p slots call.1 call.2 =
        (slots.set (negcacheIdx slots.length call.1)
          ((slots.getD (negcacheIdx slots.length call.1) .empty).note p (negcacheKey call.1)
            call.2).1,
          ((slots.getD (negcacheIdx slots.length call.1) .empty).note p (negcacheKey call.1)
            call.2).2) := by
      rw [negcacheCoreNote, if_neg hno]
    generalize hrest : (negcacheCoreNote p slots call.1 call.2).1 = slots' at *
    have hlen : slots'.length = slots.length := by
      rw [← hrest, hnote, length_set]
    have hne : slots' ≠ [] := length_pos_iff.mp (hlen ▸ hpos)
    have ih := ih slots' hne (by
      rw [hlen]
      exact fun c hc => hothers c (mem_cons_of_mem _ hc))
    rw [negcacheRun, hrest, filter_cons, filter_cons]
    by_cases hmine : call.1 = keyHash
    · simp only [hmine, decide_true, if_true, map_cons]
      rw [NegcacheSlot.noted_cons, ih, hlen]
      rw [hmine] at hnote
      have hidx : negcacheIdx slots.length keyHash < slots.length := Nat.mod_lt _ hpos
      have hslot : slots'.getD (negcacheIdx slots.length keyHash) .empty =
          ((slots.getD (negcacheIdx slots.length keyHash) .empty).note p (negcacheKey keyHash)
            call.2).1 := by
        rw [← hrest, hmine, hnote]
        simp [getD_eq_getElem?_getD, hidx]
      rw [hslot, hnote]
    · simp only [hmine, decide_false, Bool.false_eq_true, if_false]
      have hother := hothers call mem_cons_self hmine
      have hslot : slots'.getD (negcacheIdx slots.length keyHash) .empty =
          slots.getD (negcacheIdx slots.length keyHash) .empty := by
        rw [← hrest, hnote]
        simp [getD_eq_getElem?_getD, hother]
      rw [ih, hlen, hslot]

theorem negcacheMisses_eq (hthreshold : p.threshold ≠ 0) (hwindow : p.windowMs ≠ 0)
    {calls : List NegcacheCall} (hslots : 0 < nslots)
    (hothers : ∀ call ∈ calls, call.1 ≠ keyHash →
      negcacheIdx nslots call.1 ≠ negcacheIdx nslots keyHash) :
    negcacheMisses p nslots keyHash calls = (NegcacheSlot.empty.noted p (negcacheKey keyHash)
      ((calls.filter fun call => call.1 = keyHash).map Prod.snd)).1 := by
  have hlen : (replicate nslots NegcacheSlot.empty).length = nslots := length_replicate
  have hne : replicate nslots NegcacheSlot.empty ≠ [] := by
    rw [← length_pos_iff, hlen]
    exact hslots
  have hidx : negcacheIdx nslots keyHash < nslots := Nat.mod_lt _ hslots
  have hslot : (replicate nslots NegcacheSlot.empty).getD (negcacheIdx nslots keyHash) .empty =
      .empty := by
    simp [getD_eq_getElem?_getD, hidx]
  have hrun := negcacheRun_mine hthreshold hwindow _ calls hne (by
    rw [hlen]
    exact hothers)
  rw [hlen, hslot] at hrun
  exact hrun

/-! ### Windows -/

theorem missWindow_snoc (misses : List (UInt64 × UInt32)) (x : UInt64 × UInt32) :
    missWindow p (misses ++ [x]) = missStep p.windowMs.toNat (missWindow p misses) x.1.toNat := by
  simp [missWindow, foldl_append]

theorem missStep_eq (w : Option (ℕ × ℕ)) (windowMs now : ℕ) :
    ∃ start number, missStep windowMs w now = some (start, number) := by
  unfold missStep
  split
  · exact ⟨_, _, rfl⟩
  · split
    · exact ⟨_, _, rfl⟩
    · exact ⟨_, _, rfl⟩

theorem missWindow_eq_none : missWindow p misses = none ↔ misses = [] := by
  induction misses using reverseRecOn with
  | nil => simp [missWindow]
  | append_singleton misses x _ =>
    rw [missWindow_snoc]
    obtain ⟨start, number, h⟩ := missStep_eq (missWindow p misses) p.windowMs.toNat x.1.toNat
    simp [h]

theorem missWindow_bounds (h : missWindow p misses = some (start, number)) :
    (∃ x ∈ misses, x.1.toNat = start) ∧ 0 < number ∧ number ≤ misses.length := by
  induction misses using reverseRecOn generalizing start number with
  | nil => cases h
  | append_singleton misses x ih =>
    rw [missWindow_snoc] at h
    unfold missStep at h
    rw [length_append, length_singleton]
    split at h
    · obtain ⟨rfl, rfl⟩ := Prod.mk.inj (Option.some.inj h)
      exact ⟨⟨x, mem_append_right _ (mem_singleton_self x), rfl⟩, Nat.one_pos, by omega⟩
    · next start' number' hw =>
      obtain ⟨⟨y, hy, hstart⟩, hpos, hle⟩ := ih hw
      split at h
      · obtain ⟨rfl, rfl⟩ := Prod.mk.inj (Option.some.inj h)
        exact ⟨⟨x, mem_append_right _ (mem_singleton_self x), rfl⟩, Nat.one_pos, by omega⟩
      · obtain ⟨rfl, rfl⟩ := Prod.mk.inj (Option.some.inj h)
        exact ⟨⟨y, mem_append_left _ hy, hstart⟩, Nat.succ_pos _, by omega⟩

/-! ### What the slot holds -/

/-- What the slot of a principal holds after a run of its misses -/
structure NegcacheHeld (p : NegcacheParams) (key : UInt32) (misses : List (UInt64 × UInt32))
    (s : NegcacheSlot) : Prop where
  free : misses = [] → s.key ≠ key
  window : ∀ start number, missWindow p misses = some (start, number) →
    s.key = key ∧ s.windowMs.toNat = start ∧ s.misses.toNat = min number 4294967295
  idle : ∀ start number, missWindow p misses = some (start, number) →
    number < p.threshold.toNat → s.servedMs = 0
  armed : ∀ start number, missWindow p misses = some (start, number) →
    p.threshold.toNat ≤ number → ∃ pre mid first, misses = pre ++ (s.servedMs, 0) :: mid ∧
      (∀ x ∈ mid, x.2 ≠ 0) ∧ missWindow p (pre ++ [(s.servedMs, 0)]) = some (start, first) ∧
      p.threshold.toNat ≤ first

theorem toNat_backoffMs (p : NegcacheParams) : p.backoffMs.toNat = p.backoffS.toNat * 1000 := by
  have hlt := p.backoffS.toNat_lt
  rw [NegcacheParams.backoffMs, UInt64.toNat_mul, UInt32.toNat_toUInt64]
  change p.backoffS.toNat * 1000 % 2 ^ 64 = _
  omega

/-- A miss is counted in its window. -/
theorem NegcacheHeld.charged (hh : NegcacheHeld p key misses s)
    (hle : ∀ x ∈ misses, x.1.toNat ≤ t.toNat)
    (hw : missStep p.windowMs.toNat (missWindow p misses) t.toNat = some (start, number)) :
    (s.charged p key t).key = key ∧ (s.charged p key t).windowMs.toNat = start ∧
      (s.charged p key t).misses.toNat = min number 4294967295 ∧
      ((number = 1 ∧ (s.charged p key t).servedMs = 0) ∨
        (missWindow p misses = some (start, number - 1) ∧ 1 < number ∧
          (s.charged p key t).servedMs = s.servedMs)) := by
  have hfresh : s.stale p key t = true → (s.charged p key t) = ⟨key, 1, t, 0⟩ := fun hstale => by
    rw [NegcacheSlot.charged, if_pos hstale]
    rfl
  unfold missStep at hw
  split at hw
  · next hnone =>
    obtain ⟨rfl, rfl⟩ := Prod.mk.inj (Option.some.inj hw)
    have hstale : s.stale p key t = true := by
      have hkey := hh.free (missWindow_eq_none.mp hnone)
      simp [NegcacheSlot.stale, hkey]
    rw [hfresh hstale]
    exact ⟨rfl, rfl, by simp, .inl ⟨rfl, rfl⟩⟩
  · next start' number' hsome =>
    obtain ⟨hkey, hwin, hcount⟩ := hh.window start' number' hsome
    obtain ⟨⟨x, hx, hxs⟩, hpos, -⟩ := missWindow_bounds hsome
    have hback : s.windowMs ≤ t := by
      rw [UInt64.le_iff_toNat_le, hwin, ← hxs]
      exact hle x hx
    have hsub : (t - s.windowMs).toNat = t.toNat - start' := by
      rw [UInt64.toNat_sub_of_le _ _ hback, hwin]
    have hstale : s.stale p key t = true ↔ p.windowMs.toNat ≤ t.toNat - start' := by
      have hnot : ¬t < s.windowMs := by
        rw [UInt64.lt_iff_toNat_lt]
        rw [UInt64.le_iff_toNat_le] at hback
        omega
      simp [NegcacheSlot.stale, hkey, hnot, UInt64.le_iff_toNat_le, hsub]
    split at hw
    · next hover =>
      obtain ⟨rfl, rfl⟩ := Prod.mk.inj (Option.some.inj hw)
      rw [hfresh (hstale.mpr hover)]
      exact ⟨rfl, rfl, by simp, .inl ⟨rfl, rfl⟩⟩
    · next hin =>
      obtain ⟨rfl, rfl⟩ := Prod.mk.inj (Option.some.inj hw)
      have hnot : ¬s.stale p key t = true := fun h => hin (hstale.mp h)
      rw [NegcacheSlot.charged, if_neg hnot]
      have hrest : missWindow p misses = some (start', number' + 1 - 1) := hsome
      have hlt : s.misses < 4294967295 ↔ number' < 4294967295 := by
        rw [UInt32.lt_iff_toNat_lt, hcount]
        have hmax : (4294967295 : UInt32).toNat = 4294967295 := by simp
        omega
      split
      · next hroom =>
        have hroom' := hlt.mp hroom
        refine ⟨hkey, hwin, ?_, .inr ⟨hrest, by omega, rfl⟩⟩
        dsimp only
        have hone : (1 : UInt32).toNat = 1 := by simp
        rw [UInt32.toNat_add, hcount, hone, Nat.min_eq_left (Nat.le_of_lt hroom'),
          Nat.min_eq_left hroom']
        exact Nat.mod_eq_of_lt (by omega)
      · next hfull =>
        refine ⟨hkey, hwin, ?_, .inr ⟨hrest, by omega, rfl⟩⟩
        have hfull' : ¬number' < 4294967295 := fun h => hfull (hlt.mpr h)
        rw [hcount, Nat.min_eq_right (Nat.not_lt.mp hfull'),
          Nat.min_eq_right (Nat.le_succ_of_le (Nat.not_lt.mp hfull'))]

/-- What the parameters are: all positive, and the backoff shorter than the window -/
structure NegcacheParams.Proper (p : NegcacheParams) : Prop where
  threshold : 0 < p.threshold.toNat
  backoff : 0 < p.backoffS.toNat
  shorter : p.backoffS.toNat * 1000 < p.windowMs.toNat

/-- **One miss**, and its answer -/
theorem NegcacheHeld.note (hp : p.Proper) (hh : NegcacheHeld p key misses s)
    (hle : ∀ x ∈ misses, x.1.toNat ≤ t.toNat)
    (hw : missStep p.windowMs.toNat (missWindow p misses) t.toNat = some (start, number)) :
    NegcacheHeld p key (misses ++ [(t, (s.note p key t).2)]) (s.note p key t).1 ∧
      (number ≤ p.threshold.toNat → (s.note p key t).2 = 0) ∧
      (p.threshold.toNat < number → ((s.note p key t).2 = 0 ↔
        s.servedMs = 0 ∨ p.backoffS.toNat * 1000 ≤ t.toNat - s.servedMs.toNat)) ∧
      ((s.note p key t).2 = 0 ∨ (s.note p key t).2 = p.backoffS) := by
  obtain ⟨hkey, hwin, hcount, hold⟩ := hh.charged hle hw
  have hthreshold := hp.threshold
  have hmax := p.threshold.toNat_lt
  have hwait : p.backoffS ≠ 0 := fun he => by
    have := hp.backoff
    rw [he] at this
    exact Nat.lt_irrefl 0 this
  have hless : (s.charged p key t).misses < p.threshold ↔ number < p.threshold.toNat := by
    rw [UInt32.lt_iff_toNat_lt, hcount]
    omega
  have hwindow : ∀ a, missWindow p (misses ++ [(t, a)]) = some (start, number) := fun a => by
    rw [missWindow_snoc]
    exact hw
  -- a time that the slot holds from before is one of the misses
  have hserved : p.threshold.toNat < number → (s.charged p key t).servedMs = s.servedMs ∧
      missWindow p misses = some (start, number - 1) ∧ s.servedMs.toNat ≤ t.toNat := fun hlt => by
    rcases hold with ⟨hone, -⟩ | ⟨hprev, -, heq⟩
    · omega
    · obtain ⟨pre, mid, first, hsplit, -⟩ := hh.armed _ _ hprev (by omega)
      exact ⟨heq, hprev, hle (s.servedMs, 0) (by rw [hsplit]; simp)⟩
  have hidle : number ≤ p.threshold.toNat → (s.charged p key t).servedMs = 0 := fun hfew => by
    rcases hold with ⟨-, hzero⟩ | ⟨hprev, hone, heq⟩
    · exact hzero
    · rw [heq]
      exact hh.idle _ _ hprev (by omega)
  have hfree : misses ++ [(t, (s.note p key t).2)] = [] → (s.note p key t).1.key ≠ key :=
    fun he => by simp at he
  by_cases hfew : number < p.threshold.toNat
  · -- the limiter is not armed yet
    have hnote : s.note p key t = (s.charged p key t, 0) := by
      rw [NegcacheSlot.note, if_pos (hless.mpr hfew)]
    rw [hnote] at hfree ⊢
    refine ⟨⟨hfree, fun start' number' hw' => ?_, fun start' number' hw' _ => ?_,
      fun start' number' hw' harm => ?_⟩, fun _ => rfl, fun hmany => by omega, .inl rfl⟩ <;>
      rw [hwindow] at hw' <;> obtain ⟨rfl, rfl⟩ := Prod.mk.inj (Option.some.inj hw')
    · exact ⟨hkey, hwin, hcount⟩
    · exact hidle (Nat.le_of_lt hfew)
    · omega
  · by_cases hlet : (s.charged p key t).servedMs = 0 ∨ t < (s.charged p key t).servedMs ∨
        p.backoffMs ≤ t - (s.charged p key t).servedMs
    · -- a miss that is let through
      have hnote : s.note p key t = ({ s.charged p key t with servedMs := t }, 0) := by
        rw [NegcacheSlot.note, if_neg (fun h => hfew (hless.mp h)), if_pos hlet]
      rw [hnote] at hfree ⊢
      refine ⟨⟨hfree, fun start' number' hw' => ?_, fun start' number' hw' hidle' => ?_,
        fun start' number' hw' harm => ?_⟩, fun _ => rfl, fun hmany => ?_, .inl rfl⟩
      · rw [hwindow] at hw'
        obtain ⟨rfl, rfl⟩ := Prod.mk.inj (Option.some.inj hw')
        exact ⟨hkey, hwin, hcount⟩
      · rw [hwindow] at hw'
        obtain ⟨rfl, rfl⟩ := Prod.mk.inj (Option.some.inj hw')
        omega
      · rw [hwindow] at hw'
        obtain ⟨rfl, rfl⟩ := Prod.mk.inj (Option.some.inj hw')
        exact ⟨misses, [], number, rfl, by simp, hwindow 0, harm⟩
      · obtain ⟨heq, -, hback⟩ := hserved hmany
        rw [heq] at hlet
        refine ⟨fun _ => ?_, fun _ => rfl⟩
        rcases hlet with hzero | hlt | hlong
        · exact .inl hzero
        · rw [UInt64.lt_iff_toNat_lt] at hlt
          omega
        · rw [UInt64.le_iff_toNat_le, toNat_backoffMs, UInt64.toNat_sub_of_le _ _
            (UInt64.le_iff_toNat_le.mpr hback)] at hlong
          exact .inr hlong
    · -- a miss that is told to wait
      have hnote : s.note p key t = (s.charged p key t, p.backoffS) := by
        rw [NegcacheSlot.note, if_neg (fun h => hfew (hless.mp h)), if_neg hlet]
      have hmany : p.threshold.toNat < number := by
        by_contra hnot
        exact hlet (.inl (hidle (by omega)))
      obtain ⟨heq, hprev, hback⟩ := hserved hmany
      rw [hnote] at hfree ⊢
      refine ⟨⟨hfree, fun start' number' hw' => ?_, fun start' number' hw' hidle' => ?_,
        fun start' number' hw' harm => ?_⟩, fun hfew' => by omega, fun _ => ?_, .inr rfl⟩
      · rw [hwindow] at hw'
        obtain ⟨rfl, rfl⟩ := Prod.mk.inj (Option.some.inj hw')
        exact ⟨hkey, hwin, hcount⟩
      · rw [hwindow] at hw'
        obtain ⟨rfl, rfl⟩ := Prod.mk.inj (Option.some.inj hw')
        omega
      · rw [hwindow] at hw'
        obtain ⟨rfl, rfl⟩ := Prod.mk.inj (Option.some.inj hw')
        obtain ⟨pre, mid, first, hsplit, hmid, hfirst, harmed⟩ := hh.armed _ _ hprev (by omega)
        refine ⟨pre, mid ++ [(t, p.backoffS)], first, ?_, fun x hx => ?_, ?_, harmed⟩
        · dsimp only
          rw [heq]
          conv => lhs; rw [hsplit]
          simp
        · rcases mem_append.mp hx with hx | hx
          · exact hmid x hx
          · rw [mem_singleton.mp hx]
            exact hwait
        · dsimp only
          rw [heq]
          exact hfirst
      · refine ⟨fun h => absurd h hwait, fun h => absurd ?_ hlet⟩
        rw [heq]
        refine h.imp id fun hlong => .inr ?_
        rw [UInt64.le_iff_toNat_le, toNat_backoffMs, UInt64.toNat_sub_of_le _ _
          (UInt64.le_iff_toNat_le.mpr hback)]
        exact hlong

/-! ### A run -/

/-- The times do not go back. -/
abbrev Nondecreasing (times : List UInt64) : Prop :=
  times.Pairwise fun t t' => t.toNat ≤ t'.toNat

theorem noted_times (p : NegcacheParams) (key : UInt32) (s : NegcacheSlot) (times : List UInt64) :
    (s.noted p key times).1.map Prod.fst = times := by
  induction times using reverseRecOn with
  | nil => rfl
  | append_singleton times t ih => rw [NegcacheSlot.noted_snoc, map_append, ih]; rfl

theorem mem_noted {x : UInt64 × UInt32} (hx : x ∈ (s.noted p key times).1) : x.1 ∈ times := by
  rw [← noted_times p key s times]
  exact mem_map_of_mem hx

theorem noted_mono {times' : List UInt64} (h : times' <+: times) :
    (s.noted p key times').1 <+: (s.noted p key times).1 := by
  obtain ⟨rest, rfl⟩ := h
  induction rest using reverseRecOn with
  | nil => simp
  | append_singleton rest t ih =>
    rw [← append_assoc, NegcacheSlot.noted_snoc]
    exact ih.trans (prefix_append _ _)

theorem negcacheHeld_noted (hp : p.Proper) (hs : s.key ≠ key) (hmono : Nondecreasing times) :
    NegcacheHeld p key (s.noted p key times).1 (s.noted p key times).2 := by
  induction times using reverseRecOn with
  | nil =>
    have hnone : ∀ start number, missWindow p [] ≠ some (start, number) := fun _ _ h => by cases h
    exact ⟨fun _ => hs, fun _ _ h => absurd h (hnone _ _), fun _ _ h => absurd h (hnone _ _),
      fun _ _ h => absurd h (hnone _ _)⟩
  | append_singleton times t ih =>
    obtain ⟨hmono, -, hlast⟩ := pairwise_append.mp hmono
    have hle : ∀ x ∈ (s.noted p key times).1, x.1.toNat ≤ t.toNat := fun x hx =>
      hlast x.1 (mem_noted hx) t (mem_singleton_self t)
    obtain ⟨start, number, hw⟩ :=
      missStep_eq (missWindow p (s.noted p key times).1) p.windowMs.toNat t.toNat
    rw [NegcacheSlot.noted_snoc]
    exact ((ih hmono).note hp hle hw).1

theorem noted_prefix {pre : List (UInt64 × UInt32)} {a : UInt32}
    (h : pre ++ [(t, a)] <+: (s.noted p key times).1) : ∃ before, before ++ [t] <+: times ∧
      pre = (s.noted p key before).1 ∧ a = ((s.noted p key before).2.note p key t).2 := by
  induction times using reverseRecOn with
  | nil =>
    have := h.length_le
    simp [NegcacheSlot.noted] at this
  | append_singleton times t' ih =>
    rw [NegcacheSlot.noted_snoc] at h
    rcases prefix_concat_iff.mp h with he | hpre
    · obtain ⟨hpre, hlast⟩ := append_inj' he rfl
      obtain ⟨rfl, rfl⟩ := Prod.mk.inj (singleton_inj.mp hlast)
      exact ⟨times, prefix_refl _, hpre, rfl⟩
    · obtain ⟨before, hb, hrest⟩ := ih hpre
      exact ⟨before, hb.trans (prefix_append _ _), hrest⟩

theorem missWindow_later (hwindow : 0 < p.windowMs.toNat) {first number' start' : ℕ}
    {pre rest : List (UInt64 × UInt32)} (h : missWindow p pre = some (start, first))
    (h' : missWindow p (pre ++ rest) = some (start', number')) :
    (start' = start ∧ number' = first + rest.length) ∨ start < start' := by
  induction rest using reverseRecOn generalizing start' number' with
  | nil =>
    rw [append_nil, h] at h'
    obtain ⟨rfl, rfl⟩ := Prod.mk.inj (Option.some.inj h')
    exact .inl ⟨rfl, rfl⟩
  | append_singleton rest x ih =>
    rw [← append_assoc, missWindow_snoc] at h'
    cases hmid : missWindow p (pre ++ rest) with
    | none =>
      have hnil := missWindow_eq_none.mp hmid
      rw [(append_eq_nil_iff.mp hnil).1] at h
      cases h
    | some w =>
      obtain ⟨mstart, mnumber⟩ := w
      have hmid' := ih hmid
      rw [hmid] at h'
      unfold missStep at h'
      dsimp only at h'
      rw [length_append, length_singleton]
      split at h'
      · obtain ⟨rfl, rfl⟩ := Prod.mk.inj (Option.some.inj h')
        refine .inr ?_
        omega
      · obtain ⟨rfl, rfl⟩ := Prod.mk.inj (Option.some.inj h')
        omega

end BrixCache
