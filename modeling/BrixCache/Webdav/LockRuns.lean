import BrixCache.Webdav.LockCare

/-!
# Locks exclude each other

In every run of the handlers in which each new lock finds nothing beneath it, and above it nothing
but what its gate has read, no live lock of another token is under an exclusive one; and what a
handler takes away it has read.
-/

namespace BrixCache

open Words

variable {root : ExportRoot}

/-! ## What is claimed -/

def LockTree.record (s : LockTree) (p : Resource) : Option LockRecord :=
  (s.value p).bind brixLockRecordDecode

/-- A lock that is not over -/
def LockTree.Live (s : LockTree) (p : Resource) (e : LockRecord) : Prop :=
  s.record p = some e ∧ s.now < e.expires

/-- No exclusive record covers a resource with a record of another token. -/
def LocksExclusive (s : LockTree) : Prop :=
  ∀ p r e f, p <+: r → s.Live p e → s.Live r f → e.exclusive = true →
    (p = r ∨ e.depthInfinity = true) → e.token = f.token

abbrev LockWorld (root : ExportRoot) : Type := World LockTree (LockRequest root) LockAct LockReply

abbrev LockEvent (root : ExportRoot) : Type := Event (LockRequest root) LockChance ℕ

/-- One step: a request arrives, an action is done, a request ends, the clock goes on. -/
def LockStep : LockWorld root → LockEvent root → LockWorld root → Prop :=
  World.Step lockHandler LockTree.perform LockTree.tick

/-- A record that is taken away was read by the request that takes it. -/
def TakesRead (w : LockWorld root) (ev : LockEvent root) (w' : LockWorld root) : Prop :=
  ∀ p raw, w.shared.value p = some raw → w'.shared.value p = none →
    ∃ i c q past rest, ev = .turn i c ∧ w.party i = some ⟨q, past, rest⟩ ∧
      words slash q.path = p ∧ WasRead past q.path raw

/-! ## The condition -/

/-- Around a record that is put on a target: nothing of another token is beneath an exclusive
record of infinite depth, and such a record above is one that the gate has last read there, and
that the client does not present the token of. -/
structure Watched (s : LockTree) (q : LockRequest root) (past : LockPast) (e : LockRecord) :
    Prop where
  beneath : e.exclusive = true → e.depthInfinity = true → ∀ r f,
    words slash q.path <+: r → r ≠ words slash q.path → s.Live r f → f.token = e.token
  above : ∀ r f, r <+: words slash q.path → r ≠ words slash q.path → s.Live r f →
    f.exclusive = true → f.depthInfinity = true → f.token ≠ e.token →
    ∃ check ∈ (lockLevels root.canon.length q.path).tail, words slash check = r ∧
      (∃ now raw, lastRead past check = some (now, .value raw) ∧ s.value r = some raw) ∧
        (q.ctx s.now).presents f.token = false

/-- What has to be so before an action: a new lock is watched, a refreshed one has not expired
meanwhile or is watched, and a placeholder that is removed has no record the request has not
read. -/
def ActKept (s : LockTree) (q : LockRequest root) (past : LockPast) : LockAct → Prop
  | .swap path none (some raw') => s.value (words slash path) = none →
      ∀ e, brixLockRecordDecode raw' = some e → s.now < e.expires → Watched s q past e
  | .swap path (some raw) (some raw') => s.value (words slash path) = some raw →
      (∃ e, brixLockRecordDecode raw = some e ∧ s.now < e.expires) ∨
        ∀ e, brixLockRecordDecode raw' = some e → s.now < e.expires → Watched s q past e
  | .unlink path => ∀ raw, s.value (words slash path) = some raw → WasRead past path raw
  | _ => True

def StepKept (w : LockWorld root) : LockEvent root → Prop
  | .turn i _ => ∀ q past a k, w.party i = some ⟨q, past, .act a k⟩ → ActKept w.shared q past a
  | _ => True

/-! ## Changes of the tree -/

theorem LockTree.value_put (s : LockTree) (p r : Resource) (n : Option LockNode) :
    (s.put p n).value r = if r = p then n.bind LockNode.value else s.value r := by
  by_cases h : r = p
  · subst h
    simp [LockTree.value, LockTree.put]
  · simp [LockTree.value, LockTree.put, h]

variable {s s' : LockTree} {p : Resource} {c : LockChance} {ev : LockEvent root}
  {w w' : LockWorld root}

theorem LocksExclusive.fewer (h : LocksExclusive s) (hnow : s.now ≤ s'.now)
    (hrecord : ∀ p e, s'.record p = some e → s.record p = some e) : LocksExclusive s' := by
  have hlive : ∀ p e, s'.Live p e → s.Live p e := fun p e ⟨hrec, hlt⟩ =>
    ⟨hrecord p e hrec, Int.lt_of_le_of_lt hnow hlt⟩
  exact fun p r e f hpr he hf => h p r e f hpr (hlive p e he) (hlive r f hf)

theorem LocksExclusive.write (h : LocksExclusive s)
    (hnow : s'.now = s.now) (hother : ∀ r, r ≠ p → s'.record r = s.record r)
    (hbeneath : ∀ e, s'.Live p e → e.exclusive = true → e.depthInfinity = true → ∀ r f,
      p <+: r → r ≠ p → s.Live r f → f.token = e.token)
    (habove : ∀ e, s'.Live p e → ∀ r f, r <+: p → r ≠ p → s.Live r f → f.exclusive = true →
      f.depthInfinity = true → f.token = e.token) : LocksExclusive s' := by
  have hlive : ∀ r f, r ≠ p → s'.Live r f → s.Live r f := fun r f hr ⟨hrec, hlt⟩ =>
    ⟨hother r hr ▸ hrec, hnow ▸ hlt⟩
  intro a b e f hab he hf hexcl hcover
  by_cases hb : b = p
  · by_cases ha : a = p
    · subst ha
      subst hb
      rw [Option.some.inj (he.1.symm.trans hf.1)]
    · have hdepth := hcover.resolve_left fun heq => ha (heq.trans hb)
      exact habove f (hb ▸ hf) a e (hb ▸ hab) ha (hlive a e ha he) hexcl hdepth
  · by_cases ha : a = p
    · subst ha
      have hdepth := hcover.resolve_left (Ne.symm hb)
      exact (hbeneath e he hexcl hdepth b f hab hb (hlive b f hb hf)).symm
    · exact h a b e f hab (hlive a e ha he) (hlive b f hb hf) hexcl hcover

/-! ## One action -/

/-- What an action can do to the tree, said once -/
theorem LockTree.perform_cases {a : LockAct} {r : LockReply a} (h : s.perform a c = some (r, s')) :
    s' = s ∨
      (∃ path expected replacement n, a = .swap path expected replacement ∧
        s.node (words slash path) = some n ∧ n.value = expected ∧
        s' = s.put (words slash path) (some { n with value := replacement })) ∨
      (∃ path, a = .create path ∧ s.node (words slash path) = none ∧
        s' = s.put (words slash path) (some ⟨some 0, none⟩)) ∨
      ∃ path, a = .unlink path ∧ s' = s.put (words slash path) none := by
  cases a with
  | read path | probe path => exact .inl (Prod.mk.inj (Option.some.inj h)).2.symm
  | swap path expected replacement =>
    simp only [LockTree.perform] at h
    split at h
    · exact .inl (Prod.mk.inj (Option.some.inj h)).2.symm
    · cases hnode : s.node (words slash path) with
      | none =>
        rw [hnode] at h
        exact .inl (Prod.mk.inj (Option.some.inj h)).2.symm
      | some n =>
        rw [hnode] at h
        simp only [lockStoreApply] at h
        split at h
        · next hvalue =>
          exact .inr (.inl ⟨path, expected, replacement, n, rfl, hnode, hvalue,
            (Prod.mk.inj (Option.some.inj h)).2.symm⟩)
        · split at h
          · exact .inl (Prod.mk.inj (Option.some.inj h)).2.symm
          · exact .inl (Prod.mk.inj (Option.some.inj h)).2.symm
  | create path =>
    simp only [LockTree.perform] at h
    split at h
    · exact .inl (Prod.mk.inj (Option.some.inj h)).2.symm
    · next hnode _ =>
      exact .inr (.inr (.inl ⟨path, rfl, hnode,
        (Prod.mk.inj (Option.some.inj h)).2.symm⟩))
    · cases h
  | isEmpty path =>
    simp only [LockTree.perform] at h
    split at h <;> exact .inl (Prod.mk.inj (Option.some.inj h)).2.symm
  | unlink path =>
    simp only [LockTree.perform] at h
    split at h
    · split at h
      · exact .inl (Prod.mk.inj (Option.some.inj h)).2.symm
      · exact .inr (.inr (.inr ⟨path, rfl, (Prod.mk.inj (Option.some.inj h)).2.symm⟩))
    · exact .inl (Prod.mk.inj (Option.some.inj h)).2.symm

theorem LockTree.perform_now {a : LockAct} {r : LockReply a}
    (h : s.perform a c = some (r, s')) : s'.now = s.now := by
  rcases LockTree.perform_cases h with rfl | ⟨_, _, _, _, _, _, _, rfl⟩ | ⟨_, _, _, rfl⟩ |
    ⟨_, _, rfl⟩ <;> rfl

theorem LockTree.perform_read {path : Bytes}
    {r : LockReply (.read path)} (h : s.perform (.read path) c = some (r, s')) :
    r.1 ≤ s.now := by
  rw [← (Prod.mk.inj (Option.some.inj h)).1]
  exact Int.sub_le_self _ (Int.natCast_nonneg _)

/-! ## The invariant -/

/-- What the tree and the parties keep to in every state -/
structure LockInv (w : LockWorld root) : Prop where
  exclusive : LocksExclusive w.shared
  careful : World.Careful LockCare w
  times : ∀ i p, w.party i = some p → ∀ path now answer,
    (⟨.read path, (now, answer)⟩ : Σ a, LockReply a) ∈ p.past → now ≤ w.shared.now

theorem Watched.above_clear {q : LockRequest root} {past : LockPast}
    {e : LockRecord} (h : Watched s q past e)
    (htimes : ∀ path now answer,
      (⟨.read path, (now, answer)⟩ : Σ a, LockReply a) ∈ past → now ≤ s.now)
    (hpassed : ∀ check ∈ (lockLevels root.canon.length q.path).tail, Passed q past check) :
    ∀ r f, r <+: words slash q.path → r ≠ words slash q.path → s.Live r f →
      f.exclusive = true → f.depthInfinity = true → f.token = e.token := by
  intro r f hr hne hlive hexcl hdepth
  by_contra htoken
  obtain ⟨check, hcheck, rfl, ⟨now, raw, hlast, hraw⟩, hforeign⟩ :=
    h.above r f hr hne hlive hexcl hdepth htoken
  obtain ⟨now', answer, hlast', hok⟩ := hpassed check hcheck
  obtain ⟨rfl, rfl⟩ := Prod.mk.inj (Option.some.inj (hlast.symm.trans hlast'))
  have hdec : brixLockRecordDecode raw = some f := by
    have hrecord := hlive.1
    rwa [LockTree.record, hraw, Option.bind_some] at hrecord
  have hunexpired : ¬f.expires ≤ now := fun hexp =>
    absurd hlive.2 (Int.not_lt.mpr (Int.le_trans hexp (htimes _ _ _ (mem_of_lastRead hlast))))
  have hcovers : lockCovers f check q.path = true := by
    obtain ⟨rest, hrest⟩ := mem_lockLevels_tail hcheck
    rw [← hrest]
    simp [lockCovers, hdepth]
  have hforeign' : (q.ctx now).presents f.token = false := hforeign
  have hbusy : brixVfsLockProbeLevel (q.ctx now) (fun _ => .value raw) check q.path = .busy := by
    have hnow : (q.ctx now).ngxTime = now := rfl
    simp [brixVfsLockProbeLevel, hdec, hnow, hunexpired, hcovers, hforeign']
  exact absurd (hbusy.symm.trans hok) (by simp)

/-! ## Each step -/

theorem LockTree.record_put (s : LockTree) (p r : Resource) (n : Option LockNode) :
    (s.put p n).record r
      = if r = p then (n.bind LockNode.value).bind brixLockRecordDecode else s.record r := by
  rw [LockTree.record, LockTree.value_put]
  split <;> rfl

/-- Nothing of another token is beneath a record it would exclude, or above and excludes it. -/
structure Clear (s : LockTree) (p : Resource) (e : LockRecord) : Prop where
  beneath : e.exclusive = true → e.depthInfinity = true → ∀ r f,
    p <+: r → r ≠ p → s.Live r f → f.token = e.token
  above : ∀ r f, r <+: p → r ≠ p → s.Live r f → f.exclusive = true →
    f.depthInfinity = true → f.token = e.token

theorem LocksExclusive.put (h : LocksExclusive s) {n : Option LockNode}
    (hclear : ∀ e, (n.bind LockNode.value).bind brixLockRecordDecode = some e →
      s.now < e.expires → Clear s p e) : LocksExclusive (s.put p n) := by
  have hat : ∀ e, (s.put p n).Live p e → Clear s p e := fun e ⟨hrec, hlt⟩ =>
    hclear e (by rwa [LockTree.record_put, if_pos rfl] at hrec) hlt
  refine h.write rfl (fun r hr => ?_) (fun e he => (hat e he).beneath)
    fun e he => (hat e he).above
  rw [LockTree.record_put, if_neg hr]

theorem LocksExclusive.refreshed (h : LocksExclusive s)
    {e e' : LockRecord} (he : s.Live p e) (htoken : e'.token = e.token)
    (hexcl : e'.exclusive = e.exclusive) (hdepth : e'.depthInfinity = e.depthInfinity) :
    Clear s p e' where
  beneath hx hd r f hpr _ hf :=
    htoken ▸ (h p r e f hpr he hf (hexcl ▸ hx) (.inr (hdepth ▸ hd))).symm
  above r f hrp _ hf hx hd := htoken ▸ h r p f e hrp hf he hx (.inr hd)

theorem LocksExclusive.swap (h : LocksExclusive s) {q : LockRequest root}
    {past : LockPast} {path : Bytes} {expected replacement : Option Bytes}
    {n : LockNode} (hnode : s.node (words slash path) = some n) (hvalue : n.value = expected)
    (hcare : LockCare q past (.swap path expected replacement))
    (hkept : ActKept s q past (.swap path expected replacement))
    (htimes : ∀ path now answer,
      (⟨.read path, (now, answer)⟩ : Σ a, LockReply a) ∈ past → now ≤ s.now) :
    LocksExclusive (s.put (words slash path) (some { n with value := replacement })) := by
  obtain ⟨rfl, hpassed, hread⟩ := hcare
  have hnow : s.value (words slash q.path) = expected := by
    rw [LockTree.value, hnode, Option.bind_some, hvalue]
  refine h.put fun e hdec hlive => ?_
  have hwatched : Watched s q past e → Clear s (words slash q.path) e := fun hwatched =>
    ⟨hwatched.beneath, hwatched.above_clear htimes hpassed⟩
  match expected, replacement, hread, hkept with
  | _, none, _, _ => cases hdec
  | none, some raw', _, hkept => exact hwatched (hkept hnow e hdec hlive)
  | some raw, some raw', ⟨_, e₁, expires, hdec₁, henc⟩, hkept =>
    rcases hkept hnow with ⟨e₀, hdec₀, hlive₀⟩ | hkept
    · -- the record that is refreshed has not expired: it has kept the others away so far
      obtain rfl := Option.some.inj (hdec₀.symm.trans hdec₁)
      obtain ⟨hfits, htoken, -⟩ := brixLockRecordDecode_fits hdec₀
      have hback := brixLockRecordDecode_encode (e := { e₀ with expires })
        ⟨hfits.token, hfits.owner⟩ htoken henc
      obtain rfl := Option.some.inj (hback.symm.trans hdec)
      refine h.refreshed ⟨?_, hlive₀⟩ rfl rfl rfl
      rw [LockTree.record, hnow, Option.bind_some, hdec₀]
    · exact hwatched (hkept e hdec hlive)

theorem LockInv.times_step (hw : LockInv w)
    (h : LockStep w ev w') : ∀ i p, w'.party i = some p → ∀ path now answer,
      (⟨.read path, (now, answer)⟩ : Σ a, LockReply a) ∈ p.past → now ≤ w'.shared.now := by
  intro j p hp path now answer hmem
  obtain ⟨i, q, rfl, -, rfl⟩ | ⟨i, c, q, past, a, k, r, shared, rfl, hi, hperf, rfl⟩ |
    ⟨i, rfl, rfl⟩ | ⟨n, shared, rfl, htick, rfl⟩ := h.cases
  · obtain ⟨-, hp⟩ | ⟨-, hp⟩ := of_update_eq_some hp
    · cases hp
      cases hmem
    · exact hw.times j p hp path now answer hmem
  · rw [show (World.mk shared _ : LockWorld root).shared.now = w.shared.now from
      LockTree.perform_now hperf]
    obtain ⟨-, hp⟩ | ⟨-, hp⟩ := of_update_eq_some hp
    · cases hp
      rcases List.mem_cons.mp hmem with heq | hmem
      · cases heq
        exact LockTree.perform_read hperf
      · exact hw.times i _ hi path now answer hmem
    · exact hw.times j p hp path now answer hmem
  · obtain ⟨-, hp⟩ | ⟨-, hp⟩ := of_update_eq_some hp
    · cases hp
    · exact hw.times j p hp path now answer hmem
  · cases htick
    exact Int.le_trans (hw.times j p hp path now answer hmem)
      (Int.le_add_of_nonneg_right (Int.natCast_nonneg n))

theorem LockInv.step (hw : LockInv w)
    (h : LockStep w ev w') (hkept : StepKept w ev) : LockInv w' := by
  refine ⟨?_, hw.careful.step lockHandler_sound h, hw.times_step h⟩
  obtain ⟨i, q, rfl, -, rfl⟩ | ⟨i, c, q, past, a, k, r, shared, rfl, hi, hperf, rfl⟩ |
    ⟨i, rfl, rfl⟩ | ⟨n, shared, rfl, htick, rfl⟩ := h.cases
  · exact hw.exclusive
  · have hcare := hw.careful.turn hi
    have hact := hkept q past a k hi
    rcases LockTree.perform_cases hperf with rfl | ⟨path, expected, replacement, n, rfl, hnode,
      hvalue, rfl⟩ | ⟨path, rfl, hnode, rfl⟩ | ⟨path, rfl, rfl⟩
    · exact hw.exclusive
    · exact hw.exclusive.swap hnode hvalue hcare hact (hw.times i _ hi)
    · exact hw.exclusive.put (by simp)
    · exact hw.exclusive.put (by simp)
  · exact hw.exclusive
  · cases htick
    exact hw.exclusive.fewer (Int.le_add_of_nonneg_right (Int.natCast_nonneg n)) fun _ _ h => h

theorem LockInv.takesRead (hw : LockInv w)
    (h : LockStep w ev w') (hkept : StepKept w ev) : TakesRead w ev w' := by
  intro p raw hbefore hafter
  have hsame : ∀ {shared : LockTree}, shared.value p = w.shared.value p →
      shared.value p ≠ none := by
    intro shared heq hnone
    rw [heq, hbefore] at hnone
    cases hnone
  obtain ⟨i, q, rfl, -, rfl⟩ | ⟨i, c, q, past, a, k, r, shared, rfl, hi, hperf, rfl⟩ |
    ⟨i, rfl, rfl⟩ | ⟨n, shared, rfl, htick, rfl⟩ := h.cases
  · exact absurd hafter (hsame rfl)
  · have hcare := hw.careful.turn hi
    have hact := hkept q past a k hi
    rcases LockTree.perform_cases hperf with rfl | ⟨path, expected, replacement, n, rfl, hnode,
      hvalue, rfl⟩ | ⟨path, rfl, hnode, rfl⟩ | ⟨path, rfl, rfl⟩
    · exact absurd hafter (hsame rfl)
    · by_cases hp : p = words slash path
      · subst hp
        obtain ⟨rfl, -, hread⟩ := hcare
        have hexp : expected = some raw := by
          rw [← hvalue, ← hbefore, LockTree.value, hnode, Option.bind_some]
        have hrep : replacement = none := by
          simpa [LockTree.value_put] using hafter
        subst hexp
        subst hrep
        exact ⟨i, c, q, past, _, rfl, hi, rfl, hread⟩
      · exact absurd hafter (hsame (by rw [LockTree.value_put, if_neg hp]))
    · by_cases hp : p = words slash path
      · subst hp
        rw [LockTree.value, hnode] at hbefore
        cases hbefore
      · exact absurd hafter (hsame (by rw [LockTree.value_put, if_neg hp]))
    · by_cases hp : p = words slash path
      · subst hp
        obtain rfl : path = q.path := hcare
        exact ⟨i, c, q, past, _, rfl, hi, rfl, hact raw hbefore⟩
      · exact absurd hafter (hsame (by rw [LockTree.value_put, if_neg hp]))
  · exact absurd hafter (hsame rfl)
  · cases htick
    exact absurd hafter (hsame rfl)

/-! ## Runs -/

/-- **Exclusivity of locks.** From a tree whose locks are apart and no request under way, in every
run whose steps meet the condition the locks stay apart; and every further such step takes away
only what its request has read. -/
theorem locks_exclusive {w w' : LockWorld root} {evs : List (LockEvent root)}
    (hstart : LocksExclusive w.shared) (hnobody : ∀ i, w.party i = none)
    (hrun : Run (fun w ev w' => LockStep w ev w' ∧ StepKept w ev) w evs w') :
    LocksExclusive w'.shared ∧
      ∀ ev w'', LockStep w' ev w'' → StepKept w' ev → TakesRead w' ev w'' := by
  have hinv : LockInv w' := by
    refine hrun.invariant (fun w ev w' hw h => hw.step h.1 h.2) ⟨hstart, ?_, ?_⟩
    · intro i p hp
      rw [hnobody i] at hp
      cases hp
    · intro i p hp
      rw [hnobody i] at hp
      cases hp
  exact ⟨hinv.exclusive, fun ev w'' h hkept => hinv.takesRead h hkept⟩

/-! ### Two locks on one tree -/

/-- The export `/e` -/
def rootE : ExportRoot := ⟨[ascii "e"], by decide⟩

def targetB : ConfinedPath rootE := ⟨ascii "a/b", ascii "/e/a/b", by decide +kernel⟩

def targetA : ConfinedPath rootE := ⟨ascii "a", ascii "/e/a", by decide +kernel⟩

/-- A file `/e/a/b` and its directories, at time 0 -/
def treeB : LockTree where
  now := 0
  node := fun p =>
    if p = [ascii "e"] ∨ p = [ascii "e", ascii "a"] then some ⟨none, none⟩
    else if p = [ascii "e", ascii "a", ascii "b"] then some ⟨some 3, none⟩
    else none

theorem treeB_value (p : Resource) : treeB.value p = none := by
  simp only [LockTree.value, treeB]
  split
  · rfl
  · split <;> rfl

theorem treeB_exclusive : LocksExclusive treeB := by
  intro p r e f _ he
  rw [LockTree.Live, LockTree.record, treeB_value] at he
  cases he.1

/-- An exclusive lock for a minute, by a client that presents no token -/
def lockOf (target : ConfinedPath rootE) (depthInfinity : Bool) (uuid : String) :
    LockRequest rootE where
  method := .lock ⟨[], [], true, depthInfinity, ascii uuid, 60⟩
  target := target
  ifHeader := none
  lockTokenHeader := none

theorem stepKept_of_empty (h : ∀ p, w.shared.value p = none)
    (ev : LockEvent root) : StepKept w ev := by
  have hlive : ∀ r f, ¬w.shared.Live r f := by
    intro r f hr
    rw [LockTree.Live, LockTree.record, h] at hr
    cases hr.1
  cases ev with
  | turn i c =>
    intro q past a k _
    cases a with
    | swap path expected replacement =>
      match expected, replacement with
      | none, none => trivial
      | some raw, none => trivial
      | none, some raw' =>
        exact fun _ e _ _ => ⟨fun _ _ r f _ _ hf => absurd hf (hlive r f),
          fun r f _ _ hf => absurd hf (hlive r f)⟩
      | some raw, some raw' =>
        intro hvalue
        rw [h] at hvalue
        cases hvalue
    | unlink path =>
      intro raw hvalue
      rw [h] at hvalue
      cases hvalue
    | read path | probe path | create path | isEmpty path => trivial
  | arrive i q | leave i | beside n => trivial

/-- A turn in which nothing fails -/
abbrev turn (i : ℕ) : LockEvent rootE := .turn i ⟨0, false⟩

/-- `/e/a/b` is locked, to depth 0. -/
def lockB : List (LockEvent rootE) :=
  .arrive 1 (lockOf targetB false "1") :: List.replicate 6 (turn 1)

/-- It is locked, and another lock of it refused after two reads. -/
def lockBTwice : List (LockEvent rootE) :=
  lockB ++ [.arrive 2 (lockOf targetB false "2"), turn 2, turn 2]

theorem locks_exclusive_sample : ∃ w', Run LockStep (⟨treeB, fun _ => none⟩) lockBTwice w' ∧
    LocksExclusive w'.shared := by
  have hempty := fun w h => @stepKept_of_empty rootE w h
  have hrun : ∃ w', Run (fun w ev w' => LockStep w ev w' ∧ StepKept w ev)
      ⟨treeB, fun _ => none⟩ lockBTwice w' :=
    ⟨_, .cons ⟨rfl, hempty _ treeB_value _⟩ (.cons ⟨rfl, hempty _ treeB_value _⟩
      (.cons ⟨rfl, hempty _ treeB_value _⟩ (.cons ⟨rfl, hempty _ treeB_value _⟩
        (.cons ⟨rfl, hempty _ treeB_value _⟩ (.cons ⟨rfl, hempty _ treeB_value _⟩
          (.cons ⟨rfl, hempty _ treeB_value _⟩ (.cons ⟨rfl, trivial⟩
            (.cons ⟨rfl, fun q past a k h => by cases h; trivial⟩
              (.cons ⟨rfl, fun q past a k h => by cases h; trivial⟩ (.nil _))))))))))⟩
  obtain ⟨w', hrun⟩ := hrun
  exact ⟨w', hrun.mono fun _ _ _ h => h.1,
    (locks_exclusive treeB_exclusive (fun _ => rfl) hrun).1⟩

/-- `/e/a/b` is locked, and then, to any depth, `/e/a`. -/
def lockBThenA : List (LockEvent rootE) :=
  lockB ++ .arrive 2 (lockOf targetA true "2") :: List.replicate 5 (turn 2)

/-- Live, exclusive and of infinite depth the one, live the other, and of different tokens -/
def conflict (s : LockTree) (p r : Resource) : Bool :=
  match s.record p, s.record r with
  | some e, some f => s.now < e.expires && s.now < f.expires && e.exclusive && e.depthInfinity
    && e.token ≠ f.token
  | _, _ => false

theorem not_exclusive_of_conflict {r : Resource} (hpr : p <+: r)
    (h : conflict s p r = true) : ¬LocksExclusive s := by
  intro hexcl
  rw [conflict] at h
  split at h
  · next e f he hf =>
    simp only [Bool.and_eq_true, decide_eq_true_eq] at h
    obtain ⟨⟨⟨⟨hliveE, hliveF⟩, hx⟩, hd⟩, htoken⟩ := h
    exact htoken (hexcl p r e f hpr ⟨he, hliveE⟩ ⟨hf, hliveF⟩ hx (.inr hd))
  · cases h

/-- The second lock is given although it covers what the first is on. -/
theorem lock_given_over_lock : LocksExclusive treeB ∧ ∃ w' : LockWorld rootE,
    Run LockStep ⟨treeB, fun _ => none⟩ lockBThenA w' ∧ ¬LocksExclusive w'.shared := by
  have hrun : (lockBThenA.foldlM (World.step lockHandler LockTree.perform LockTree.tick)
      (⟨treeB, fun _ => none⟩ : LockWorld rootE)).any (fun w => conflict w.shared
        [ascii "e", ascii "a"] [ascii "e", ascii "a", ascii "b"]) = true := by
    decide +kernel
  obtain ⟨w', hw', hconflict⟩ := (Option.any_eq_true _ _).mp hrun
  exact ⟨treeB_exclusive, w', Run.of_foldlM hw',
    not_exclusive_of_conflict ⟨[ascii "b"], rfl⟩ hconflict⟩

end BrixCache
