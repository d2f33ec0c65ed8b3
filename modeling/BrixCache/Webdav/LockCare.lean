import BrixCache.Vfs.LockGateExact
import BrixCache.Webdav.Locks

/-!
# What the lock handlers are careful about

Before a record is exchanged the gate has read every level above the target and found nothing that
blocks it, and what is taken away or refreshed was read before. This is so of each handler's
program alone, whatever the others do.
-/

namespace BrixCache

open Words List

variable {root : ExportRoot} {q : LockRequest root}

/-! ## The past of a request -/

abbrev LockPast : Type := Past LockAct LockReply

/-- The last answer to a read of a path -/
def lastRead : LockPast → Bytes → Option (ℤ × XattrRead)
  | [], _ => none
  | ⟨.read path, r⟩ :: past, check => if path = check then some r else lastRead past check
  | _ :: past, check => lastRead past check

/-- The request read this lock at the path. -/
def WasRead (past : LockPast) (path raw : Bytes) : Prop :=
  ∃ now, (⟨.read path, (now, .value raw)⟩ : Σ a, LockReply a) ∈ past

/-- What was last read at a level does not block the target. -/
def Passed (q : LockRequest root) (past : LockPast) (check : Bytes) : Prop :=
  ∃ now answer, lastRead past check = some (now, answer) ∧
    brixVfsLockProbeLevel (q.ctx now) (fun _ => answer) check q.path = .ok

variable {check : Bytes} {past : LockPast} {e : LockRecord}

theorem mem_of_lastRead {r : ℤ × XattrRead}
    (h : lastRead past check = some r) : (⟨.read check, r⟩ : Σ a, LockReply a) ∈ past := by
  fun_induction lastRead past check with
  | case1 => cases h
  | case2 past path r' => exact Option.some.inj h ▸ mem_cons_self
  | case3 past path check r' hne ih => exact mem_cons_of_mem _ (ih h)
  | case4 a past check hne ih => exact mem_cons_of_mem _ (ih h)

theorem WasRead.mono {past' : LockPast} {path raw : Bytes} (h : WasRead past path raw)
    (hsuffix : past <:+ past') : WasRead past' path raw :=
  h.imp fun _ hmem => hsuffix.subset hmem

/-! ## Care -/

/-- An exchange that takes away or refreshes has read what it expects. -/
def SwapCare (past : LockPast) (path : Bytes) :
    Option Bytes → Option Bytes → Prop
  | some raw, none => WasRead past path raw
  | some raw, some raw' => WasRead past path raw ∧
      ∃ e expires, brixLockRecordDecode raw = some e ∧
        brixLockRecordEncode { e with expires } = some raw'
  | none, some _ => True
  | none, none => False

/-- What is so before each action of a handler -/
def LockCare (q : LockRequest root) (past : LockPast) : LockAct → Prop
  | .swap path expected replacement => path = q.path ∧
      (∀ check ∈ (lockLevels root.canon.length q.path).tail, Passed q past check) ∧
        SwapCare past path expected replacement
  | .create path => path = q.path
  | .unlink path => path = q.path
  | _ => True

/-- A program is careful, and has done only more when it ends. -/
structure LockSound (q : LockRequest root) {β : Type} (p : LockProg β) (past : LockPast)
    (post : LockPast → β → Prop) : Prop where
  wp : p.Wp (LockCare q) (fun past' b => past <:+ past' ∧ post past' b) past

namespace LockSound

variable {β γ : Type} {past : LockPast}

variable {post : LockPast → β → Prop}

theorem pure {b : β} (h : post past b) :
    LockSound q (Pure.pure b) past post := ⟨⟨suffix_rfl, h⟩⟩

theorem act {a : LockAct} {post : LockPast → LockReply a → Prop} (hcare : LockCare q past a)
    (h : ∀ r, post (⟨a, r⟩ :: past) r) : LockSound q (BrixCache.act a) past post :=
  ⟨⟨hcare, fun r => ⟨suffix_cons _ _, h r⟩⟩⟩

theorem act_past {a : LockAct} (hcare : LockCare q past a) :
    LockSound q (BrixCache.act a) past fun past' r => past' = ⟨a, r⟩ :: past :=
  act hcare fun _ => rfl

theorem bind {p : LockProg β} {f : β → LockProg γ}
    {post' : LockPast → γ → Prop} (hp : LockSound q p past post)
    (hf : ∀ past' b, past <:+ past' → post past' b → LockSound q (f b) past' post') :
    LockSound q (p >>= f) past post' := by
  refine ⟨(Prog.wp_bind p f).mpr (hp.wp.mono fun past' b ⟨hsuffix, hpost⟩ => ?_)⟩
  exact (hf past' b hsuffix hpost).wp.mono fun past'' c ⟨hsuffix', hpost'⟩ =>
    ⟨hsuffix.trans hsuffix', hpost'⟩

theorem mono {p : LockProg β} {post' : LockPast → β → Prop} (hp : LockSound q p past post)
    (h : ∀ past' b, post past' b → post' past' b) : LockSound q p past post' :=
  ⟨hp.wp.mono fun past' b ⟨hsuffix, hpost⟩ => ⟨hsuffix, h past' b hpost⟩⟩

end LockSound

/-! ## The parts -/

theorem Passed.read {r : ℤ × XattrRead}
    (h : brixVfsLockProbeLevel (q.ctx r.1) (fun _ => r.2) check q.path = .ok)
    {level : Bytes} (hlevel : level = check ∨ Passed q past level) :
    Passed q (⟨.read check, r⟩ :: past) level := by
  by_cases heq : check = level
  · subst heq
    exact ⟨r.1, r.2, if_pos rfl, h⟩
  · obtain ⟨now, answer, hlast, hok⟩ := hlevel.resolve_left (Ne.symm heq)
    exact ⟨now, answer, (if_neg heq).trans hlast, hok⟩

theorem requireUnlocked_sound (levels : List Bytes) (past : LockPast) :
    LockSound q (requireUnlocked q levels) past fun past' result =>
      result = .ok → ∀ level, level ∈ levels ∨ Passed q past level → Passed q past' level := by
  induction levels generalizing past with
  | nil => exact LockSound.pure fun _ level h => h.resolve_left not_mem_nil
  | cons check above ih =>
    refine LockSound.bind (LockSound.act_past trivial) ?_
    rintro past' ⟨now, answer⟩ - rfl
    simp only
    cases hprobe : brixVfsLockProbeLevel (q.ctx now) (fun _ => answer) check q.path with
    | ok =>
      refine (ih _).mono fun past' result hpost hresult level hlevel => ?_
      refine hpost hresult level ?_
      rcases hlevel with hmem | hpassed
      · exact (mem_cons.mp hmem).symm.imp_right fun h => Passed.read hprobe (.inl h)
      · exact .inr (Passed.read hprobe (.inr hpassed))
    | busy | fault => exact LockSound.pure nofun

theorem LockRequest.tail_subset
    (h : check ∈ (lockLevels root.canon.length q.path).tail) : check ∈ q.levels := by
  rw [LockRequest.levels, q.target.levels_eq]
  exact mem_cons_of_mem _ h

theorem brixVfsLockStoreUpdate_sound {expected replacement : Option Bytes}
    (hcare : ∀ past', past <:+ past' → SwapCare past' q.path expected replacement) :
    LockSound q (brixVfsLockStoreUpdate q expected replacement) past fun _ _ => True := by
  refine LockSound.bind (requireUnlocked_sound q.levels past) fun past' result hsuffix hpost => ?_
  cases result with
  | ok =>
    refine LockSound.act ⟨rfl, fun check hcheck => ?_, hcare past' hsuffix⟩ fun r => trivial
    exact hpost rfl check (.inl (q.tail_subset hcheck))
  | busy | fault => exact LockSound.pure trivial

theorem webdavLockXattrWrite_sound {expected : Option Bytes}
    (hcare : ∀ raw, brixLockRecordEncode e = some raw → ∀ past', past <:+ past' →
      SwapCare past' q.path expected (some raw)) :
    LockSound q (webdavLockXattrWrite q e expected) past fun _ _ => True := by
  rw [webdavLockXattrWrite]
  cases henc : brixLockRecordEncode e with
  | none => exact LockSound.pure trivial
  | some raw =>
    exact LockSound.bind (brixVfsLockStoreUpdate_sound (hcare raw henc)) fun _ _ _ _ =>
      LockSound.pure trivial

theorem webdavLockXattrDelete_sound (hread : WasRead past q.path e.observed) :
    LockSound q (webdavLockXattrDelete q e) past fun _ _ => True :=
  LockSound.bind (brixVfsLockStoreUpdate_sound fun _ hsuffix => hread.mono hsuffix) fun _ _ _ _ =>
    LockSound.pure trivial

theorem webdavLockReapNull_sound (e : LockRecord) (past : LockPast) :
    LockSound q (webdavLockReapNull q e) past fun _ _ => True := by
  rw [webdavLockReapNull]
  split
  · refine LockSound.bind (requireUnlocked_sound q.levels past) fun past₁ result _ _ => ?_
    cases result with
    | ok =>
      refine LockSound.bind (LockSound.act_past trivial) fun past₂ isEmpty _ _ => ?_
      cases isEmpty with
      | true =>
        refine LockSound.bind (requireUnlocked_sound q.levels past₂) fun past₃ result _ _ => ?_
        cases result with
        | ok => exact LockSound.act rfl fun _ => trivial
        | busy | fault => exact LockSound.pure trivial
      | false => exact LockSound.pure trivial
    | busy | fault => exact LockSound.pure trivial
  · exact LockSound.pure trivial

theorem webdavLockExpiredCleanup_sound (reapNull : Bool) (hread : WasRead past q.path e.observed) :
    LockSound q (webdavLockExpiredCleanup q e reapNull) past fun _ _ => True := by
  refine LockSound.bind (webdavLockXattrDelete_sound hread) fun past' deleted _ _ => ?_
  cases deleted with
  | true =>
    cases reapNull with
    | true => exact webdavLockReapNull_sound e past'
    | false => exact LockSound.pure trivial
  | false => exact LockSound.pure trivial

theorem webdavLockXattrRead_sound (past : LockPast) :
    LockSound q (webdavLockXattrRead q) past fun past' found => ∀ now e, found = some (now, some e) →
      WasRead past' q.path e.observed ∧ brixLockRecordDecode e.observed = some e := by
  refine LockSound.bind (LockSound.act_past trivial) ?_
  rintro past' ⟨now, answer⟩ - rfl
  cases answer with
  | absent | fault => exact LockSound.pure (by simp)
  | value raw =>
    refine LockSound.pure ?_
    intro now' e h
    simp only [Option.some.injEq, Prod.mk.injEq] at h
    obtain ⟨rfl, h⟩ := h
    obtain ⟨-, -, rfl⟩ := brixLockRecordDecode_fits h
    exact ⟨⟨now, mem_cons_self⟩, h⟩

theorem webdavLockCreateNull_sound (past : LockPast) :
    LockSound q (webdavLockCreateNull q) past fun _ _ => True := by
  refine LockSound.bind (LockSound.act_past trivial) fun past₁ present _ _ => ?_
  cases present with
  | true => exact LockSound.pure trivial
  | false =>
    refine LockSound.bind (requireUnlocked_sound q.levels past₁) fun past₂ result _ _ => ?_
    cases result with
    | ok =>
      exact LockSound.bind (LockSound.act_past rfl) fun _ _ _ _ => LockSound.pure trivial
    | busy | fault => exact LockSound.pure trivial

/-! ## The handlers -/

theorem webdavLockCreate_sound (n : LockNew) (now : ℤ) (createdNull : Bool) (past : LockPast) :
    LockSound q (webdavLockCreate q n now createdNull) past fun _ _ => True := by
  have hwrite : LockSound q (webdavLockXattrWrite q (n.record now createdNull) none) past
      fun _ _ => True := webdavLockXattrWrite_sound fun _ _ _ _ => trivial
  rw [webdavLockCreate]
  exact hwrite.bind fun _ _ _ _ => LockSound.pure trivial

theorem webdavLockRefresh_sound (n : LockNew) (now : ℤ)
    (hread : WasRead past q.path e.observed) (hdec : brixLockRecordDecode e.observed = some e) :
    LockSound q (webdavLockRefresh q n now e) past fun _ _ => True := by
  rw [webdavLockRefresh]
  split
  · have hwrite : LockSound q (webdavLockXattrWrite q { e with expires := now + n.timeout }
        (some e.observed)) past fun _ _ => True :=
      webdavLockXattrWrite_sound fun raw henc past' hsuffix =>
        ⟨hread.mono hsuffix, e, now + n.timeout, hdec, henc⟩
    exact hwrite.bind fun _ _ _ _ => LockSound.pure trivial
  · exact LockSound.pure trivial

theorem webdavHandleLock_sound (n : LockNew) (past : LockPast) :
    LockSound q (webdavHandleLock q n) past fun _ _ => True := by
  refine LockSound.bind (webdavLockCreateNull_sound past) fun past₁ createdNull _ _ => ?_
  cases createdNull with
  | none => exact LockSound.pure trivial
  | some createdNull =>
    refine LockSound.bind (webdavLockXattrRead_sound past₁) fun past₂ found _ hfound => ?_
    match found, hfound with
    | none, _ => exact LockSound.pure trivial
    | some (now, none), _ => exact webdavLockCreate_sound n now createdNull past₂
    | some (now, some e), hfound =>
      obtain ⟨hread, hdec⟩ := hfound now e rfl
      simp only
      split
      · exact LockSound.bind (webdavLockExpiredCleanup_sound false hread) fun past₃ _ _ _ =>
          webdavLockCreate_sound n now createdNull past₃
      · exact webdavLockRefresh_sound n now hread hdec

theorem webdavHandleUnlock_sound (past : LockPast) :
    LockSound q (webdavHandleUnlock q) past fun _ _ => True := by
  rw [webdavHandleUnlock]
  split
  · exact LockSound.pure trivial
  · refine LockSound.bind (webdavLockXattrRead_sound past) fun past₁ found _ hfound => ?_
    obtain _ | ⟨now, _ | e⟩ := found
    · exact LockSound.pure trivial
    · exact LockSound.pure trivial
    · obtain ⟨hread, -⟩ := hfound now e rfl
      simp only
      split
      · exact webdavLockExpiredCleanup_sound true hread
      · split
        · refine LockSound.bind (webdavLockXattrDelete_sound hread) fun past₂ deleted _ _ => ?_
          cases deleted with
          | true => exact webdavLockReapNull_sound e past₂
          | false => exact LockSound.pure trivial
        · exact LockSound.pure trivial

theorem webdavCleanup_sound (past : LockPast) :
    LockSound q (webdavCleanup q) past fun _ _ => True := by
  refine LockSound.bind (webdavLockXattrRead_sound past) fun past₁ found _ hfound => ?_
  obtain _ | ⟨now, _ | e⟩ := found
  · exact LockSound.pure trivial
  · exact LockSound.pure trivial
  · simp only
    split
    · exact webdavLockExpiredCleanup_sound true (hfound now e rfl).1
    · exact LockSound.pure trivial

theorem lockHandler_sound (q : LockRequest root) :
    (lockHandler q).Wp (LockCare q) (fun _ _ => True) [] := by
  have h : LockSound q (lockHandler q) [] fun _ _ => True := by
    rw [lockHandler]
    split
    · next n _ => exact webdavHandleLock_sound n []
    · exact webdavHandleUnlock_sound []
    · exact webdavCleanup_sound []
  exact h.wp.mono fun _ _ _ => trivial

end BrixCache
