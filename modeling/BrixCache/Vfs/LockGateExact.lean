import BrixCache.Vfs.LockGate

/-!
# What the lock gates refuse

The gate, the edge and the gate of a list of paths against what they are for: a mutation is
blocked by an unexpired record on its target, or by one of infinite depth above it, that the
client does not present the token of. The gates read every record but that of the root directory
itself, and the edge reads the record of what a symbolic link points to when the link is removed.
-/

namespace BrixCache

open Words List

/-! ## What blocks a mutation -/

def LockDb.read (db : LockDb) (check : Bytes) : XattrRead :=
  match db.value (words slash check) with
  | none => .absent
  | some raw => .value raw

def LockDb.record (db : LockDb) (p : Resource) : Option LockRecord :=
  (db.value p).bind brixLockRecordDecode

/-- Unexpired, and not of the client -/
def LockCtx.Foreign (ctx : LockCtx) (e : LockRecord) : Prop :=
  ctx.ngxTime < e.expires ∧ ctx.presents e.token = false

variable (ctx : LockCtx) (db : LockDb)

/-- A lock of another is on the resource. -/
def LockedOn (p : Resource) : Prop :=
  ∃ e, db.record p = some e ∧ ctx.Foreign e

/-- A lock of another is there, and is for what is below too. -/
def LockedBelow (p : Resource) : Prop :=
  ∃ e, db.record p = some e ∧ ctx.Foreign e ∧ e.depthInfinity = true

/-- The operation removes a link and not what it names. -/
def RemovesLink (op : MutationOp) (path : Bytes) : Prop :=
  op = .mutateRemove ∧ ctx.isLink path = true

/-- A resource over the path, from the root of the export on -/
def Above (path : Bytes) (p : Resource) : Prop :=
  ctx.root.names <+: p ∧ p <+: words slash path ∧ p ≠ words slash path

/-- What should refuse a mutation -/
def Blocked (op : MutationOp) (path : Bytes) : Prop :=
  (¬RemovesLink ctx op path ∧ LockedOn ctx db (words slash path)) ∨
    ∃ p, Above ctx path p ∧ LockedBelow ctx db p

/-- A lock of another over the path reaches it. -/
def LockedAbove (path : Bytes) : Prop :=
  ∃ p, (Above ctx path p ∧ (ctx.root.names = [] → p ≠ [])) ∧ LockedBelow ctx db p

def GateResult.verdict : GateResult → EdgeVerdict
  | .ok => .ok
  | .busy => .locked
  | .fault => .error

/-- The gate, the edge and the call for many paths are exact. -/
structure LockGateExact (op : MutationOp) (target : ConfinedPath ctx.root)
    (targets : List (ConfinedPath ctx.root)) : Prop where
  refuses : brixVfsRequireUnlocked ctx db.read .strict op target.path ≠ .ok ↔
    Blocked ctx db op target.path
  edge : (webdavCheckLocks ctx db.read target.path).1
    = (brixVfsRequireUnlocked ctx db.read .strict op target.path).verdict
  many : brixVfsRequireUnlockedMany ctx db.read .strict op (targets.map (·.path)) = .ok ↔
    ∀ t ∈ targets, brixVfsRequireUnlocked ctx db.read .strict op t.path = .ok

/-- Only the record of the root directory blocks the target. -/
def RootMissed (op : MutationOp) (path : Bytes) : Prop :=
  ctx.root.names = [] ∧ words slash path ≠ [] ∧ LockedBelow ctx db [] ∧
    ¬(¬RemovesLink ctx op path ∧ LockedOn ctx db (words slash path)) ∧ ¬LockedAbove ctx db path

/-- The target is a link to be removed, and only what it points to is locked. -/
def ReferentRead (op : MutationOp) (path : Bytes) : Prop :=
  RemovesLink ctx op path ∧ LockedOn ctx db (words slash path) ∧ ¬LockedAbove ctx db path

/-! ## One level -/

/-- A gate's answer, when it is the question whether something is so -/
def Decides (r : GateResult) (P : Prop) : Prop := (r = .busy ∧ P) ∨ (r = .ok ∧ ¬P)

variable {P : Prop} {r : GateResult} {check path : Bytes} {op : MutationOp}
  {cleared : Option Bytes}

theorem Decides.congr {Q : Prop} (h : Decides r P) (hiff : P ↔ Q) :
    Decides r Q := propext hiff ▸ h

theorem Decides.ne_ok (h : Decides r P) : r ≠ .ok ↔ P := by
  rcases h with ⟨rfl, hP⟩ | ⟨rfl, hP⟩ <;> simp [hP]

theorem Decides.eq_ok (h : Decides r P) : r = .ok ↔ ¬P := by
  rcases h with ⟨rfl, hP⟩ | ⟨rfl, hP⟩ <;> simp [hP]

theorem Decides.verdict_eq {r' : GateResult} {Q : Prop} (h : Decides r P)
    (h' : Decides r' Q) : r.verdict = r'.verdict ↔ (P ↔ Q) := by
  rcases h with ⟨rfl, hP⟩ | ⟨rfl, hP⟩ <;> rcases h' with ⟨rfl, hQ⟩ | ⟨rfl, hQ⟩ <;>
    simp [GateResult.verdict, hP, hQ]

theorem brixVfsLockProbeLevel_decides (check path : Bytes) :
    Decides (brixVfsLockProbeLevel ctx db.read check path)
      (∃ e, db.record (words slash check) = some e ∧ ctx.Foreign e ∧
        lockCovers e check path = true) := by
  rw [brixVfsLockProbeLevel, LockDb.read, LockDb.record]
  cases hvalue : db.value (words slash check) with
  | none => exact .inr ⟨rfl, by simp⟩
  | some raw =>
    simp only [Option.bind_some]
    cases hdec : brixLockRecordDecode raw with
    | none => exact .inr ⟨rfl, by simp⟩
    | some e =>
      simp only [Option.some.injEq, exists_eq_left', LockCtx.Foreign]
      by_cases hexp : e.expires ≤ ctx.ngxTime
      · exact .inr ⟨if_pos hexp, fun h => absurd h.1.1 (Int.not_lt.mpr hexp)⟩
      · rw [if_neg hexp]
        by_cases hblock : lockCovers e check path && !ctx.presents e.token
        · rw [if_pos hblock]
          simp only [Bool.and_eq_true, Bool.not_eq_true'] at hblock
          exact .inl ⟨rfl, ⟨Int.not_le.mp hexp, hblock.2⟩, hblock.1⟩
        · rw [if_neg hblock]
          refine .inr ⟨rfl, fun h => hblock ?_⟩
          simp [h.1.2, h.2]

theorem probe_target (path : Bytes) :
    Decides (brixVfsLockProbeLevel ctx db.read path path) (LockedOn ctx db (words slash path)) :=
  (brixVfsLockProbeLevel_decides ctx db path path).congr (by simp [lockCovers, LockedOn])

theorem probe_above (h : check ++ [slash] <+: path) :
    Decides (brixVfsLockProbeLevel ctx db.read check path)
      (LockedBelow ctx db (words slash check)) := by
  obtain ⟨rest, rfl⟩ := h
  refine (brixVfsLockProbeLevel_decides ctx db _ _).congr ?_
  simp [lockCovers, LockedBelow]

/-! ## A walk -/

variable {ctx db}

/-- The probe of `check` answers busy. -/
def BlocksAt (ctx : LockCtx) (db : LockDb) (op : MutationOp) (path check : Bytes) : Prop :=
  brixVfsLockProbeMutation ctx db.read op check path = .busy

theorem probeMutation_decides (op : MutationOp) (check path : Bytes) :
    Decides (brixVfsLockProbeMutation ctx db.read op check path)
      (BlocksAt ctx db op path check) := by
  have hne : brixVfsLockProbeMutation ctx db.read op check path ≠ .fault := by
    rw [brixVfsLockProbeMutation]
    split
    · simp
    · rcases brixVfsLockProbeLevel_decides ctx db check path with h | h <;>
        simp [h.1]
  rw [BlocksAt]
  cases h : brixVfsLockProbeMutation ctx db.read op check path with
  | ok => exact .inr ⟨rfl, by simp⟩
  | busy => exact .inl ⟨rfl, rfl⟩
  | fault => exact absurd h hne

theorem walkGate_none (op : MutationOp) (path : Bytes) (clean : Bool)
    (levels : List Bytes) :
    (brixVfsLockWalkGate ctx db.read op .strict none path clean levels = (.busy, false) ∧
        ∃ check ∈ levels, BlocksAt ctx db op path check) ∨
      (brixVfsLockWalkGate ctx db.read op .strict none path clean levels = (.ok, clean) ∧
        ∀ check ∈ levels, ¬BlocksAt ctx db op path check) := by
  induction levels with
  | nil => exact .inr ⟨rfl, by simp⟩
  | cons check above ih =>
    rw [brixVfsLockWalkGate, if_neg (by simp)]
    rcases probeMutation_decides op check path with ⟨h, hblock⟩ | ⟨h, hblock⟩
    · exact .inl ⟨by simp [h, brixVfsLockRefuse], check, mem_cons_self, hblock⟩
    · rcases ih with ⟨hwalk, x, hx, hxb⟩ | ⟨hwalk, hall⟩
      · exact .inl ⟨by simp [h, hwalk], x, mem_cons_of_mem _ hx, hxb⟩
      · exact .inr ⟨by simp [h, hwalk], forall_mem_cons.mpr ⟨hblock, hall⟩⟩

theorem walkGate_cleared (op : MutationOp) {parent : Bytes} (clean : Bool)
    {levels : List Bytes}
    (h : ∀ pre post, levels = pre ++ parent :: post → parent.length < path.length →
      ∀ x ∈ parent :: post, ¬BlocksAt ctx db op path x) :
    brixVfsLockWalkGate ctx db.read op .strict (some parent) path clean levels
      = brixVfsLockWalkGate ctx db.read op .strict none path clean levels := by
  induction levels with
  | nil => rfl
  | cons check above ih =>
    by_cases hcheck : some parent = some check ∧ check.length < path.length
    · obtain ⟨heq, hlt⟩ := hcheck
      cases heq
      have hfree := h [] above rfl hlt
      rcases walkGate_none op path clean (parent :: above) with ⟨-, x, hx, hxb⟩ | ⟨hwalk, -⟩
      · exact absurd hxb (hfree x hx)
      · rw [hwalk, brixVfsLockWalkGate, if_pos ⟨rfl, hlt⟩]
    · have ih := ih fun pre post heq => h (check :: pre) post (by rw [heq, cons_append])
      simp only [brixVfsLockWalkGate, if_neg hcheck, ih, reduceCtorEq, false_and, if_false]

/-! ## The walk to a target -/

theorem ConfinedPath.take_eq {root : ExportRoot} (t : ConfinedPath root) :
    t.path.take (PATH_MAX - 1) = t.path :=
  take_of_length_le (Nat.le_sub_one_of_lt (brixBeneathFullPath_cases t.joined).1)

theorem ConfinedPath.levels_eq {root : ExportRoot} (t : ConfinedPath root) :
    lockLevels root.canon.length (t.path.take (PATH_MAX - 1))
      = t.path :: (lockLevels root.canon.length t.path).tail := by
  rw [t.take_eq, lockLevels_eq, tail_cons]

theorem blocksAt_target :
    BlocksAt ctx db op path path ↔
      ¬RemovesLink ctx op path ∧ LockedOn ctx db (words slash path) := by
  rw [BlocksAt, brixVfsLockProbeMutation, RemovesLink]
  by_cases hlink : op = .mutateRemove ∧ ctx.isLink path = true
  · simp [hlink]
  · rw [if_neg (by simpa using hlink)]
    rcases probe_target ctx db path with ⟨h, hP⟩ | ⟨h, hP⟩
    · simp [h, hP, hlink]
    · simp [h, hP]

theorem blocksAt_above (h : check ++ [slash] <+: path) :
    BlocksAt ctx db op path check ↔ LockedBelow ctx db (words slash check) := by
  have hlen : check.length ≠ path.length := by
    have h := h.length_le
    rw [length_append] at h
    exact Nat.ne_of_lt h
  rw [BlocksAt, brixVfsLockProbeMutation, if_neg (by simp [hlen])]
  rcases probe_above ctx db h with ⟨h, hP⟩ | ⟨h, hP⟩ <;> simp [h, hP]

theorem exists_blocksAt_above (t : ConfinedPath ctx.root) :
    (∃ check ∈ (lockLevels ctx.root.canon.length t.path).tail, BlocksAt ctx db op t.path check) ↔
      LockedAbove ctx db t.path := by
  have hiff : ∀ check ∈ (lockLevels ctx.root.canon.length t.path).tail,
      (BlocksAt ctx db op t.path check ↔ LockedBelow ctx db (words slash check)) :=
    fun check hcheck => blocksAt_above (mem_lockLevels_tail hcheck)
  constructor
  · rintro ⟨check, hcheck, hblock⟩
    exact ⟨words slash check, (lockLevels_above t _).mp (mem_map_of_mem hcheck),
      (hiff check hcheck).mp hblock⟩
  · rintro ⟨p, hp, hlock⟩
    obtain ⟨check, hcheck, rfl⟩ := mem_map.mp ((lockLevels_above t p).mpr hp)
    exact ⟨check, hcheck, (hiff check hcheck).mpr hlock⟩

theorem brixVfsRequireUnlocked_decides (op : MutationOp) (t : ConfinedPath ctx.root) :
    Decides (brixVfsRequireUnlocked ctx db.read .strict op t.path)
      ((¬RemovesLink ctx op t.path ∧ LockedOn ctx db (words slash t.path)) ∨
        LockedAbove ctx db t.path) := by
  rw [brixVfsRequireUnlocked, if_neg (by simp), lockWalkGate, t.levels_eq, ← blocksAt_target,
    ← exists_blocksAt_above t, ← exists_mem_cons_iff]
  rcases walkGate_none op t.path true (t.path :: _) with ⟨hwalk, hex⟩ | ⟨hwalk, hall⟩
  · exact .inl ⟨by rw [hwalk], hex⟩
  · exact .inr ⟨by rw [hwalk], fun ⟨x, hx, hxb⟩ => hall x hx hxb⟩

/-! ## The edge -/

theorem webdavCheckLockAt_eq (check path : Bytes) (cleaned : List Bytes) :
    (webdavCheckLockAt ctx db.read check path cleaned).1
      = (brixVfsLockProbeLevel ctx db.read check path).verdict := by
  rw [webdavCheckLockAt, brixVfsLockProbeLevel]
  cases db.read check with
  | absent | fault => rfl
  | value raw =>
    simp only
    cases brixLockRecordDecode raw with
    | none => rfl
    | some e =>
      simp only
      by_cases hexp : e.expires ≤ ctx.ngxTime
      · simp [hexp, GateResult.verdict]
      · by_cases hblock : lockCovers e check path && !ctx.presents e.token <;>
          simp [hexp, hblock, GateResult.verdict]

theorem checkLocks_spec (path : Bytes) (levels cleaned : List Bytes) :
    ((checkLocks ctx db.read path levels cleaned).1 = .locked ∧
        ∃ check ∈ levels, brixVfsLockProbeLevel ctx db.read check path = .busy) ∨
      ((checkLocks ctx db.read path levels cleaned).1 = .ok ∧
        ∀ check ∈ levels, brixVfsLockProbeLevel ctx db.read check path ≠ .busy) := by
  induction levels generalizing cleaned with
  | nil => exact .inr ⟨rfl, by simp⟩
  | cons check above ih =>
    have hat := @webdavCheckLockAt_eq ctx db check path cleaned
    rw [checkLocks]
    generalize webdavCheckLockAt ctx db.read check path cleaned = r at hat ⊢
    obtain ⟨verdict, cleaned'⟩ := r
    rcases brixVfsLockProbeLevel_decides ctx db check path with ⟨h, -⟩ | ⟨h, -⟩
    · obtain rfl : verdict = .locked := by simpa [h, GateResult.verdict] using hat
      exact .inl ⟨rfl, check, mem_cons_self, h⟩
    · obtain rfl : verdict = .ok := by simpa [h, GateResult.verdict] using hat
      rcases ih cleaned' with ⟨hwalk, x, hx, hxb⟩ | ⟨hwalk, hall⟩
      · exact .inl ⟨hwalk, x, mem_cons_of_mem _ hx, hxb⟩
      · exact .inr ⟨hwalk, forall_mem_cons.mpr ⟨by simp [h], hall⟩⟩

theorem webdavCheckLocks_decides (t : ConfinedPath ctx.root) :
    ∃ r, (webdavCheckLocks ctx db.read t.path).1 = r.verdict ∧
      Decides r (LockedOn ctx db (words slash t.path) ∨ LockedAbove ctx db t.path) := by
  have hiff : (∃ check ∈ t.path :: (lockLevels ctx.root.canon.length t.path).tail,
      brixVfsLockProbeLevel ctx db.read check t.path = .busy) ↔
      LockedOn ctx db (words slash t.path) ∨ LockedAbove ctx db t.path := by
    rw [exists_mem_cons_iff, ← @exists_blocksAt_above ctx db .mutateWrite t]
    refine or_congr ?_ ?_
    · rcases probe_target ctx db t.path with ⟨h, hP⟩ | ⟨h, hP⟩ <;> simp [h, hP]
    · simp [BlocksAt, brixVfsLockProbeMutation]
  rw [webdavCheckLocks, t.levels_eq]
  rcases checkLocks_spec t.path (t.path :: _) [] with ⟨hwalk, hex⟩ | ⟨hwalk, hall⟩
  · exact ⟨.busy, hwalk, .inl ⟨rfl, hiff.mp hex⟩⟩
  · exact ⟨.ok, hwalk, .inr ⟨rfl, fun h =>
      have ⟨x, hx, hxb⟩ := hiff.mpr h
      hall x hx hxb⟩⟩

/-! ## A list of targets -/

/-- Nothing of infinite depth is at a parent that was walked clean, or above it. -/
def MemoFree (ctx : LockCtx) (db : LockDb) (cleared : Option Bytes) : Prop :=
  ∀ parent, cleared = some parent →
    ∀ x ∈ lockLevels ctx.root.canon.length parent, ¬LockedBelow ctx db (words slash x)

theorem lockLevels_suffix {rootLen : ℕ} {pre post : List Bytes}
    (h : lockLevels rootLen path = pre ++ check :: post) :
    check :: post = lockLevels rootLen check := by
  induction pre generalizing path with
  | nil =>
    rw [nil_append] at h
    obtain rfl : path = check := by
      rw [lockLevels_eq] at h
      exact (cons.inj h).1
    exact h.symm
  | cons c pre ih =>
    rw [lockLevels_eq, cons_append] at h
    obtain ⟨-, h⟩ := cons.inj h
    cases hnext : lockNext rootLen path with
    | none => simp [hnext] at h
    | some up => exact ih (by simpa [hnext] using h)

theorem walkGate_memo (hfree : MemoFree ctx db cleared) (t : ConfinedPath ctx.root) :
    lockWalkGate ctx db.read op .strict cleared t.path
      = lockWalkGate ctx db.read op .strict none t.path := by
  cases cleared with
  | none => rfl
  | some parent =>
    rw [lockWalkGate, lockWalkGate, t.levels_eq]
    refine walkGate_cleared op true fun pre post heq hlt x hx => ?_
    have hlevels : parent :: post = lockLevels ctx.root.canon.length parent := by
      refine @lockLevels_suffix _ t.path _ pre _ ?_
      rw [← heq, lockLevels_eq, tail_cons]
    -- the memo is never the target: it is a level above
    have htail : x ∈ (lockLevels ctx.root.canon.length t.path).tail := by
      cases pre with
      | nil => exact absurd (congrArg length (cons.inj heq).1) (Nat.ne_of_gt hlt)
      | cons c pre =>
        rw [(cons.inj heq).2]
        exact mem_append_right _ hx
    rw [blocksAt_above (mem_lockLevels_tail htail)]
    exact hfree parent rfl x (hlevels ▸ hx)

theorem memoFree_clearedAfter (t : ConfinedPath ctx.root)
    (h : brixVfsRequireUnlocked ctx db.read .strict op t.path = .ok) :
    MemoFree ctx db (clearedAfter ctx t.path) := by
  intro parent hparent x hx
  have hnext : lockNext ctx.root.canon.length t.path = some parent := by
    rw [clearedAfter, t.take_eq] at hparent
    split at hparent
    · cases hparent
    · next up hup =>
      split at hparent
      · cases hparent
      · next hup' =>
        cases hparent
        have hlen := (brixLockPathAscend_begins hup).length_le
        rw [length_append] at hlen
        have hroot := Nat.not_lt.mp fun h => hup' (.inl h)
        have hlong : ¬t.path.length ≤ ctx.root.canon.length :=
          Nat.not_le.mpr (Nat.lt_of_le_of_lt hroot hlen)
        simp only [lockNext, if_neg hlong, hup, if_neg (Nat.not_lt.mpr hroot)]
  have htail : x ∈ (lockLevels ctx.root.canon.length t.path).tail := by
    rw [lockLevels_eq, tail_cons, hnext]
    exact hx
  have hfree := (brixVfsRequireUnlocked_decides op t).eq_ok.mp h
  rw [← @exists_blocksAt_above ctx db op t] at hfree
  exact fun hlock => hfree (.inr ⟨x, htail,
    (blocksAt_above (mem_lockLevels_tail htail)).mpr hlock⟩)

theorem requireUnlockedMany_cons
    (hfree : MemoFree ctx db cleared) (t : ConfinedPath ctx.root) (paths : List Bytes) :
    (brixVfsRequireUnlocked ctx db.read .strict op t.path ≠ .ok ∧
        requireUnlockedMany ctx db.read .strict op cleared (t.path :: paths) ≠ .ok) ∨
      (brixVfsRequireUnlocked ctx db.read .strict op t.path = .ok ∧
        ∃ cleared', MemoFree ctx db cleared' ∧
          requireUnlockedMany ctx db.read .strict op cleared (t.path :: paths)
            = requireUnlockedMany ctx db.read .strict op cleared' paths) := by
  have hone : brixVfsRequireUnlocked ctx db.read .strict op t.path
      = (lockWalkGate ctx db.read op .strict none t.path).1 := if_neg (by simp)
  rw [requireUnlockedMany, walkGate_memo hfree t]
  rcases walkGate_none op t.path true
    (lockLevels ctx.root.canon.length (t.path.take (PATH_MAX - 1))) with ⟨hwalk, -⟩ | ⟨hwalk, -⟩
  · have hwalk : lockWalkGate ctx db.read op .strict none t.path = (.busy, false) := hwalk
    exact .inl (by simp [hone, hwalk])
  · have hwalk : lockWalkGate ctx db.read op .strict none t.path = (.ok, true) := hwalk
    have hok : brixVfsRequireUnlocked ctx db.read .strict op t.path = .ok := by rw [hone, hwalk]
    exact .inr ⟨hok, _, memoFree_clearedAfter t hok, by simp [hwalk]⟩

theorem requireUnlockedMany_ok
    (hfree : MemoFree ctx db cleared) (targets : List (ConfinedPath ctx.root)) :
    requireUnlockedMany ctx db.read .strict op cleared (targets.map (·.path)) = .ok ↔
      ∀ t ∈ targets, brixVfsRequireUnlocked ctx db.read .strict op t.path = .ok := by
  induction targets generalizing cleared with
  | nil => simp [requireUnlockedMany]
  | cons t targets ih =>
    rw [map_cons, forall_mem_cons]
    rcases requireUnlockedMany_cons hfree t (targets.map (·.path)) with
      ⟨hbad, hmany⟩ | ⟨hok, cleared', hfree', hmany⟩
    · exact iff_of_false hmany fun h => hbad h.1
    · exact hmany ▸ (ih hfree').trans ⟨fun h => ⟨hok, h⟩, And.right⟩

/-! ## Exactness -/

theorem exists_above_iff :
    (∃ p, Above ctx path p ∧ LockedBelow ctx db p) ↔
      LockedAbove ctx db path ∨
        (ctx.root.names = [] ∧ words slash path ≠ [] ∧ LockedBelow ctx db []) := by
  constructor
  · rintro ⟨p, habove, hlock⟩
    by_cases hp : ctx.root.names = [] → p ≠ []
    · exact .inl ⟨p, ⟨habove, hp⟩, hlock⟩
    · obtain ⟨hroot, hp⟩ := Classical.not_imp.mp hp
      obtain rfl := not_not.mp hp
      exact .inr ⟨hroot, Ne.symm habove.2.2, hlock⟩
  · rintro (⟨p, ⟨habove, -⟩, hlock⟩ | ⟨hroot, hpath, hlock⟩)
    · exact ⟨p, habove, hlock⟩
    · exact ⟨[], ⟨by simp [hroot], List.nil_prefix, Ne.symm hpath⟩, hlock⟩

/-- **Exactness of the lock gates.** They are exact for a target, whatever the list, save where
the record of the root directory is all that blocks it, or where it is a link to be removed and
the record of what it points to is. -/
theorem lock_gate_exact (ctx : LockCtx) (db : LockDb) (op : MutationOp)
    (target : ConfinedPath ctx.root) (targets : List (ConfinedPath ctx.root)) :
    LockGateExact ctx db op target targets ↔
      ¬RootMissed ctx db op target.path ∧ ¬ReferentRead ctx db op target.path := by
  have hgate := @brixVfsRequireUnlocked_decides ctx db op target
  obtain ⟨r, hedge, hr⟩ := @webdavCheckLocks_decides ctx db target
  have hmany : brixVfsRequireUnlockedMany ctx db.read .strict op (targets.map (·.path)) = .ok ↔
      ∀ t ∈ targets, brixVfsRequireUnlocked ctx db.read .strict op t.path = .ok := by
    rw [brixVfsRequireUnlockedMany, if_neg (by simp)]
    exact requireUnlockedMany_ok (fun _ h => by cases h) targets
  have hrefuses : (brixVfsRequireUnlocked ctx db.read .strict op target.path ≠ .ok ↔
      Blocked ctx db op target.path) ↔ ¬RootMissed ctx db op target.path := by
    rw [hgate.ne_ok, Blocked, exists_above_iff, RootMissed]
    tauto
  have hsame : (webdavCheckLocks ctx db.read target.path).1
      = (brixVfsRequireUnlocked ctx db.read .strict op target.path).verdict ↔
        ¬ReferentRead ctx db op target.path := by
    rw [hedge, hr.verdict_eq hgate, ReferentRead]
    tauto
  exact ⟨fun h => ⟨hrefuses.mp h.refuses, hsame.mp h.edge⟩,
    fun h => ⟨hrefuses.mpr h.1, hsame.mpr h.2, hmany⟩⟩

/-! ### A lock on the root directory -/

/-- An export of the root directory, asked about at time 1 by a client with no token -/
def bareCtx : LockCtx where
  root := ⟨[], by simp⟩
  ngxTime := 1
  lockToken := none
  isLink := fun _ => false

def rootLock : Bytes :=
  ascii "v=2|token=t|owner=o|expires=9|scope=exclusive|depth=infinity|null=0"

/-- The root directory is locked, with infinite depth. -/
def rootLocked : LockDb where
  value := fun p => if p = [] then some rootLock else none
  fits := by
    intro p raw h
    split at h
    · exact Option.some.inj h ▸ by decide +kernel
    · cases h

def pathA : ConfinedPath bareCtx.root := ⟨ascii "a", ascii "/a", by decide +kernel⟩

/-- `/a` is written to although somebody holds the tree. -/
theorem root_lock_overlooked : ¬LockGateExact bareCtx rootLocked .mutateWrite pathA [] := by
  intro h
  have hok : brixVfsRequireUnlocked bareCtx rootLocked.read .strict .mutateWrite pathA.path = .ok := by
    decide +kernel
  refine h.refuses.mpr (.inr ⟨[], ?_, ?_⟩) hok
  · exact ⟨List.nil_prefix, List.nil_prefix, by decide +kernel⟩
  · refine ⟨_, (rfl : _ = some ((brixLockRecordDecode rootLock).getD LockRecord.zero.1)), ?_, ?_⟩
    · exact ⟨by decide +kernel, rfl⟩
    · decide +kernel

end BrixCache
