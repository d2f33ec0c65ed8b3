import BrixCache.Lib.Counted
import BrixCache.Lib.Run
import BrixCache.Pblock.Refs

/-!
# The reference counts of an export

`Covered` is what the statements and file calls keep: the count of every blob covers
the rows that name it and the references in hand, and no blob that is referenced, or
may be nominated for a fold, has lost a block file. `Keeps` is what a call leaves of
the export for the other paths. There is one specification for each procedure.
-/

namespace BrixCache

open Function List

variable {P B D : Type}

/-! ## The statements -/

namespace PblockExport

variable {st : PblockExport P B D} {b c : B}

theorem one_le_refsCount (st : PblockExport P B D) (b : B) : 1 ≤ st.refsCount b := by
  rw [refsCount]
  split
  · exact Nat.le_refl 1
  · exact Nat.le_max_right _ _

theorem refsCount_of_none (h : st.blobs b = none) : st.refsCount b = 1 := by
  rw [refsCount, h]

theorem refsCount_of_some {r : BlobRow D} (h : st.blobs b = some r) :
    st.refsCount b = max r.refcount 1 := by
  rw [refsCount, h]

theorem holds_congr {st' : PblockExport P B D} (h : st'.objects = st.objects) :
    st'.holds = st.holds := by
  funext p
  rw [holds, holds, h]

section

variable [DecidableEq B]

theorem refsCount_setBlob_of_ne (row : Option (BlobRow D)) (h : c ≠ b) :
    (st.setBlob b row).refsCount c = st.refsCount c := by
  simp only [refsCount, setBlob, update_of_ne h]

theorem refsCount_setBlob_none (st : PblockExport P B D) (b : B) :
    (st.setBlob b none).refsCount b = 1 := by
  simp only [refsCount, setBlob, update_self]

theorem refsCount_setBlob_some (st : PblockExport P B D) (b : B) (r : BlobRow D) :
    (st.setBlob b (some r)).refsCount b = max r.refcount 1 := by
  simp only [refsCount, setBlob, update_self]

theorem dropBlock_files_self (st : PblockExport P B D) (b : B) (k : ℕ) :
    (st.dropBlock b k).files b = update (st.files b) k none :=
  update_self _ _ _

theorem dropBlock_files_of_ne (h : c ≠ b) {k : ℕ} :
    (st.dropBlock b k).files c = st.files c :=
  update_of_ne h _ _

section

variable (st)

theorem track_eq (b : B) (size : ℕ) (bs : ℕ+)
    (hash : Option (ContentHash D)) :
    ∃ n, st.track b size bs hash = st.setBlob b (some ⟨n, size, bs, hash⟩) ∧
      max n 1 = st.refsCount b ∧ (∀ r, st.blobs b = some r → n = r.refcount) ∧
      (st.blobs b = none → n = 1) := by
  rw [track, refsCount]
  cases h : st.blobs b with
  | none => exact ⟨1, rfl, rfl, nofun, fun _ => rfl⟩
  | some r => exact ⟨r.refcount, rfl, rfl, fun _ hr => congrArg _ (Option.some.inj hr), nofun⟩

theorem bump_eq (b : B) (size : ℕ) (bs : ℕ+) :
    ∃ r, st.bump b size bs = st.setBlob b (some r) ∧ 2 ≤ r.refcount + 1 ∧
      ((∀ r, st.blobs b = some r → 1 ≤ r.refcount) →
        2 ≤ r.refcount ∧ st.refsCount b + 1 = r.refcount) ∧
      (r.hash ≠ none → ∃ r', st.blobs b = some r' ∧ r'.hash ≠ none) := by
  rw [bump, refsCount]
  cases h : st.blobs b with
  | none => exact ⟨⟨2, size, bs, none⟩, rfl, Nat.le_add_right 2 1,
      fun _ => ⟨Nat.le_refl 2, rfl⟩, nofun⟩
  | some r =>
    refine ⟨{ r with refcount := r.refcount + 1 }, rfl, by simp, ?_, fun hr => ⟨r, rfl, hr⟩⟩
    intro hpos
    have hr := hpos r rfl
    exact ⟨by simpa using hr, by simpa using hr⟩

@[simp] theorem track_objects (b : B) (size : ℕ) (bs : ℕ+)
    (hash : Option (ContentHash D)) : (st.track b size bs hash).objects = st.objects := by
  rw [track]
  split <;> rfl

@[simp] theorem track_saved (b : B) (size : ℕ) (bs : ℕ+)
    (hash : Option (ContentHash D)) : (st.track b size bs hash).saved = st.saved := by
  rw [track]
  split <;> rfl

@[simp] theorem track_files (b : B) (size : ℕ) (bs : ℕ+)
    (hash : Option (ContentHash D)) : (st.track b size bs hash).files = st.files := by
  rw [track]
  split <;> rfl

@[simp] theorem track_lost (b : B) (size : ℕ) (bs : ℕ+)
    (hash : Option (ContentHash D)) : (st.track b size bs hash).lost = st.lost := by
  rw [track]
  split <;> rfl

@[simp] theorem bump_objects (b : B) (size : ℕ) (bs : ℕ+) :
    (st.bump b size bs).objects = st.objects := by
  rw [bump]
  split <;> rfl

@[simp] theorem bump_saved (b : B) (size : ℕ) (bs : ℕ+) :
    (st.bump b size bs).saved = st.saved := by
  rw [bump]
  split <;> rfl

@[simp] theorem bump_files (b : B) (size : ℕ) (bs : ℕ+) :
    (st.bump b size bs).files = st.files := by
  rw [bump]
  split <;> rfl

@[simp] theorem bump_lost (b : B) (size : ℕ) (bs : ℕ+) :
    (st.bump b size bs).lost = st.lost := by
  rw [bump]
  split <;> rfl

end

end

variable [DecidableEq P]

theorem holds_setObject (st : PblockExport P B D) (p : P) (row : Option (PblockMeta B)) :
    (st.setObject p row).holds = update st.holds p (row.map (·.blob)) := by
  funext q
  rw [setObject]
  by_cases h : q = p
  · subst h
    simp [holds]
  · simp only [holds, update_of_ne h]

theorem holds_repoint (st : PblockExport P B D) (p : P) (b : B) :
    (st.repoint p b).holds =
      if (st.objects p).isSome then update st.holds p (some b) else st.holds := by
  rw [repoint, holds_setObject]
  cases h : st.objects p with
  | none => simp [holds, h, update_eq_self_iff]
  | some o => rfl

end PblockExport

/-! ## What they keep -/

variable [DecidableEq B]

/-- The counts cover who `holds` a blob and the references in hand, and the block
files of what is held, in hand or nominable are all there. -/
structure Covered (holds : P → Option B) (owed : List B) (st : PblockExport P B D) : Prop where
  counted : Counted holds owed st.refsCount
  held : ∀ p b, holds p = some b → st.lost b = false
  due : ∀ b ∈ owed, st.lost b = false
  refcount : ∀ b r, st.blobs b = some r → 1 ≤ r.refcount
  hashed : ∀ b r, st.blobs b = some r → r.hash ≠ none → st.lost b = false

namespace Covered

variable {holds : P → Option B} {owed : List B} {st st' : PblockExport P B D} {b : B}

theorem congr (h : Covered holds owed st) (hblobs : st'.blobs = st.blobs)
    (hlost : st'.lost = st.lost) : Covered holds owed st' := by
  have hcount : st'.refsCount = st.refsCount := by
    funext c
    rw [PblockExport.refsCount, PblockExport.refsCount, hblobs]
  constructor
  · rw [hcount]
    exact h.counted
  · rw [hlost]
    exact h.held
  · rw [hlost]
    exact h.due
  · rw [hblobs]
    exact h.refcount
  · rw [hblobs, hlost]
    exact h.hashed

theorem forget (h : Covered holds (b :: owed) st) : Covered holds owed st :=
  { h with
    counted := h.counted.forget
    due := fun c hc => h.due c (mem_cons_of_mem b hc) }

theorem setBlob (h : Covered holds owed st) (row : Option (BlobRow D))
    (hcount : st.refsCount b ≤ (st.setBlob b row).refsCount b)
    (hpos : ∀ r, row = some r → 1 ≤ r.refcount)
    (hhash : ∀ r, row = some r → r.hash ≠ none → st.lost b = false) :
    Covered holds owed (st.setBlob b row) := by
  refine ⟨h.counted.mono ?_, h.held, h.due, ?_, ?_⟩
  · intro c
    by_cases hc : c = b
    · subst hc
      exact hcount
    · rw [PblockExport.refsCount_setBlob_of_ne row hc]
  · intro c r hr
    obtain ⟨rfl, hrow⟩ | ⟨-, hold⟩ := of_update_eq_some hr
    · exact hpos r hrow
    · exact h.refcount c r hold
  · intro c r hr hne
    obtain ⟨rfl, hrow⟩ | ⟨-, hold⟩ := of_update_eq_some hr
    · exact hhash r hrow hne
    · exact h.hashed c r hold hne

theorem dropRow (h : Covered holds owed st) (hn : st.refsCount b ≤ 1) :
    Covered holds owed (st.setBlob b none) := by
  refine h.setBlob none ?_ nofun nofun
  rwa [PblockExport.refsCount_setBlob_none]

theorem track (h : Covered holds owed st) (size : ℕ) (bs : ℕ+) {hash : Option (ContentHash D)}
    (hhash : hash ≠ none → st.lost b = false) : Covered holds owed (st.track b size bs hash) := by
  obtain ⟨n, heq, hmax, hrow, hnone⟩ := st.track_eq b size bs hash
  rw [heq]
  refine h.setBlob _ ?_ ?_ ?_
  · rw [PblockExport.refsCount_setBlob_some, hmax]
  · rintro r ⟨⟩
    cases hb : st.blobs b with
    | none => rw [hnone hb]
    | some r =>
      rw [hrow r hb]
      exact h.refcount b r hb
  · rintro r ⟨⟩ hne
    exact hhash hne

theorem bump (h : Covered holds owed st) (size : ℕ) (bs : ℕ+) (hb : st.lost b = false) :
    Covered holds (b :: owed) (st.bump b size bs) := by
  obtain ⟨r, heq, -, hcount, hhash⟩ := st.bump_eq b size bs
  obtain ⟨htwo, hsucc⟩ := hcount (h.refcount b)
  rw [heq]
  have hself : (st.setBlob b (some r)).refsCount b = st.refsCount b + 1 := by
    rw [PblockExport.refsCount_setBlob_some, hsucc]
    omega
  have hrow : Covered holds owed (st.setBlob b (some r)) := by
    refine h.setBlob _ ?_ ?_ ?_
    · omega
    · rintro r' ⟨⟩
      omega
    · intro _ _ _
      exact hb
  refine { hrow with counted := h.counted.raise hself.ge ?_, due := ?_ }
  · intro c hc
    rw [PblockExport.refsCount_setBlob_of_ne _ hc]
  · intro c hc
    obtain rfl | hin := mem_cons.mp hc
    · exact hb
    · exact h.due c hin

/-- A count that goes down by one -/
theorem lower (h : Covered holds (b :: owed) st) (hn : 1 < st.refsCount b) :
    Covered holds owed (st.lower b) := by
  cases hrow : st.blobs b with
  | none =>
    rw [PblockExport.refsCount_of_none hrow] at hn
    omega
  | some r =>
    have hmax := PblockExport.refsCount_of_some hrow
    have heq : st.lower b = st.setBlob b (some { r with refcount := r.refcount - 1 }) := by
      rw [PblockExport.lower, hrow]
      rfl
    rw [heq]
    have hself := PblockExport.refsCount_setBlob_some st b { r with refcount := r.refcount - 1 }
    refine ⟨h.counted.lower ?_ ?_, h.held, fun c hc => h.due c (mem_cons_of_mem b hc), ?_, ?_⟩
    · rw [hself]
      simp only
      omega
    · intro c hc
      rw [PblockExport.refsCount_setBlob_of_ne _ hc]
    · intro c r' hr'
      obtain ⟨rfl, hsome⟩ | ⟨-, hold⟩ := of_update_eq_some hr'
      · cases hsome
        simp only
        omega
      · exact h.refcount c r' hold
    · intro c r' hr' hne
      obtain ⟨rfl, hsome⟩ | ⟨-, hold⟩ := of_update_eq_some hr'
      · cases hsome
        exact h.hashed c r hrow hne
      · exact h.hashed c r' hold hne

theorem dropBlock (h : Covered holds owed st) (hfree : ∀ p, holds p ≠ some b) (howed : b ∉ owed)
    (hhash : st.storedHash b = none) (k : ℕ) : Covered holds owed (st.dropBlock b k) := by
  have hlost : ∀ c ≠ b, (st.dropBlock b k).lost c = st.lost c := by
    intro c hc
    exact update_of_ne hc _ _
  refine ⟨h.counted, ?_, ?_, h.refcount, ?_⟩
  · intro p c hp
    rw [hlost c (fun heq => hfree p (heq ▸ hp))]
    exact h.held p c hp
  · intro c hc
    rw [hlost c (fun heq => howed (heq ▸ hc))]
    exact h.due c hc
  · intro c r hr hne
    have hcb : c ≠ b := by
      rintro rfl
      rw [PblockExport.storedHash] at hhash
      apply hne
      rw [show st.blobs c = some r from hr] at hhash
      exact hhash
    rw [hlost c hcb]
    exact h.hashed c r hr hne

theorem vacant (h : Covered holds owed st) (hfree : ∀ p, holds p ≠ some b) (howed : b ∉ owed)
    (hlost : st.lost b = false) : Covered holds (b :: owed) st := by
  refine { h with counted := h.counted.vacant hfree howed (st.one_le_refsCount b), due := ?_ }
  intro c hc
  obtain rfl | hin := mem_cons.mp hc
  · exact hlost
  · exact h.due c hin

variable [DecidableEq P]

theorem letGo (h : Covered holds owed st) {p : P} (hp : holds p = some b) :
    Covered (update holds p none) (b :: owed) st := by
  refine { h with counted := h.counted.letGo hp, held := ?_, due := ?_ }
  · intro q c hq
    obtain ⟨-, hnone⟩ | ⟨-, hold⟩ := of_update_eq_some hq
    · cases hnone
    · exact h.held q c hold
  · intro c hc
    obtain rfl | hin := mem_cons.mp hc
    · exact h.held p c hp
    · exact h.due c hin

theorem hide (h : Covered holds owed st) (p : P) :
    Covered (update holds p none) owed st := by
  refine { h with counted := h.counted.hide p, held := ?_ }
  intro q c hq
  obtain ⟨-, hnone⟩ | ⟨-, hold⟩ := of_update_eq_some hq
  · cases hnone
  · exact h.held q c hold

theorem take (h : Covered holds (b :: owed) st) (p : P) :
    Covered (update holds p (some b)) owed st := by
  refine { h.forget with counted := h.counted.take p, held := ?_ }
  intro q c hq
  obtain ⟨-, hsome⟩ | ⟨-, hold⟩ := of_update_eq_some hq
  · cases hsome
    exact h.due b mem_cons_self
  · exact h.held q c hold

theorem swap {b' : B} (h : Covered holds (b' :: owed) st) {p : P} (hp : holds p = some b) :
    Covered (update holds p (some b')) (b :: owed) st := by
  refine { h.take p with counted := h.counted.swap hp, due := ?_ }
  intro c hc
  obtain rfl | hin := mem_cons.mp hc
  · exact h.held p c hp
  · exact h.due c (mem_cons_of_mem b' hin)

end Covered

/-! ## What a call leaves for the other paths -/

/-- No transaction is open, and everything is covered. -/
structure Safe (st : PblockExport P B D) : Prop where
  idle : st.saved = none
  covered : Covered st.holds [] st

/-- What a call on the paths `own` that began in `st` may leave. -/
structure Keeps (own : List P) (st s : PblockExport P B D) : Prop where
  safe : Safe s
  rows : ∀ q ∉ own, s.objects q = st.objects q
  files : ∀ q ∉ own, ∀ b, st.holds q = some b → s.files b = st.files b

namespace Keeps

variable {own : List P} {st s s' : PblockExport P B D}

theorem refl (h : Safe st) : Keeps own st st := ⟨h, fun _ _ => rfl, fun _ _ _ _ => rfl⟩

theorem trans (h : Keeps own st s) (h' : Keeps own s s') : Keeps own st s' := by
  refine ⟨h'.safe, ?_, ?_⟩
  · intro q hq
    rw [h'.rows q hq, h.rows q hq]
  · intro q hq b hb
    have hs : s.holds q = some b := by
      rw [PblockExport.holds, h.rows q hq]
      exact hb
    rw [h'.files q hq b hs, h.files q hq b hb]

theorem readPath (h : Keeps own st s) {q : P} (hq : q ∉ own) : s.readPath q = st.readPath q := by
  rw [PblockExport.readPath, PblockExport.readPath, h.rows q hq]
  cases hrow : st.objects q with
  | none => rfl
  | some o =>
    have hholds : st.holds q = some o.blob := by
      rw [PblockExport.holds, hrow]
      rfl
    simp only [Option.bind_some, PblockExport.readObject, h.files q hq o.blob hholds]

theorem of_blobs (h : Safe s') (hobj : s'.objects = s.objects) (hfiles : s'.files = s.files) :
    Keeps own s s' := by
  refine ⟨h, ?_, ?_⟩
  · intro q _
    rw [hobj]
  · intro q _ b _
    rw [hfiles]

end Keeps

/-! ## Releasing -/

/-- A release with `io` unlinks a block file. -/
def ReleaseIo.Unlinks (io : ReleaseIo) (st : PblockExport P B D) (o : PblockMeta B) : Prop :=
  io.counts = true ∧ st.refsCount o.blob ≤ 1 ∧
    ∃ k ≤ pblockLastBlock o.size o.bs, (st.files o.blob k).isSome = true ∧ io.unlinks k = true

/-- A release with `io` counts down. -/
def ReleaseIo.Lowers (io : ReleaseIo) (st : PblockExport P B D) (o : PblockMeta B) : Prop :=
  io.counts = true ∧ 1 < st.refsCount o.blob ∧ io.lowers = true

/-- A release that unlinks a block file of a blob with a recorded hash deletes the
blob's row. -/
def ReleaseIo.Forgets (io : ReleaseIo) (st : PblockExport P B D) (o : PblockMeta B) : Prop :=
  io.Unlinks st o → st.storedHash o.blob ≠ none → io.drops = true

/-- What a release of `b` leaves of the rows, and of the blobs that are held. -/
structure Left (holds : P → Option B) (b : B) (st s : PblockExport P B D) : Prop where
  objects : s.objects = st.objects
  saved : s.saved = st.saved
  blobs : ∀ c ≠ b, s.blobs c = st.blobs c
  files : ∀ p c, holds p = some c → s.files c = st.files c

omit [DecidableEq B] in
theorem Left.refl {holds : P → Option B} {b : B} (st : PblockExport P B D) : Left holds b st st :=
  ⟨rfl, rfl, fun _ _ => rfl, fun _ _ _ => rfl⟩

theorem Keeps.left {own : List P} {st s t : PblockExport P B D}
    (hk : Keeps own st s) {b : B} (hcov : Covered s.holds [] t) (hleft : Left s.holds b s t) :
    Keeps own st t := by
  refine hk.trans ⟨⟨hleft.saved.trans hk.safe.idle, ?_⟩, ?_, ?_⟩
  · rwa [PblockExport.holds_congr hleft.objects]
  · intro q _
    rw [hleft.objects]
  · intro q _ b hb
    exact hleft.files q b hb

open Proc

variable {holds : P → Option B} {owed : List B} {st s : PblockExport P B D}
  {o : PblockMeta B}

/-- The removal of a blob that no path holds -/
theorem refsRemove_spec {unlinks : ℕ → Bool} (h : Covered holds owed s) (hleft : Left holds o.blob st s)
    (hfree : ∀ p, holds p ≠ some o.blob) (howed : o.blob ∉ owed)
    (hhash : ∀ k ≤ pblockLastBlock o.size o.bs, (s.files o.blob k).isSome = true →
      unlinks k = true → s.storedHash o.blob = none) :
    wp (fun t => Covered holds owed t ∧ Left holds o.blob st t) (refsRemove unlinks o)
      (fun _ t => Covered holds owed t ∧ Left holds o.blob st t) s := by
  let I : PblockExport P B D → Prop := fun t =>
    Covered holds owed t ∧ Left holds o.blob st t ∧ t.storedHash = s.storedHash ∧
      ∀ k, (t.files o.blob k).isSome = true → (s.files o.blob k).isSome = true
  have hloop : wp (fun t => Covered holds owed t ∧ Left holds o.blob st t) (refsRemove unlinks o)
      (fun _ => I) s := by
    apply wp_forEach I
    · rintro k hk t ⟨hcov, hl, hstored, hsome⟩
      simp only [refsUnlinkBlock, wp_bind, wp_gets, wp_attempt, wp_pure]
      split
      · next hgo =>
        obtain ⟨hhere, hunlink⟩ := Bool.and_eq_true_iff.mp hgo
        have hle : k ≤ pblockLastBlock o.size o.bs := by
          have hlt := mem_range.mp hk
          omega
        have hnone : t.storedHash o.blob = none := by
          rw [hstored]
          exact hhash k hle (hsome k hhere) hunlink
        have hcov' := hcov.dropBlock hfree howed hnone k
        have hl' : Left holds o.blob st (t.dropBlock o.blob k) := by
          refine ⟨hl.objects, hl.saved, hl.blobs, ?_⟩
          intro p b hp
          have hne : b ≠ o.blob := fun heq => hfree p (heq ▸ hp)
          rw [← hl.files p b hp, PblockExport.dropBlock_files_of_ne hne]
        refine ⟨⟨hcov', hl'⟩, hcov', hl', hstored, ?_⟩
        intro j hj
        rw [PblockExport.dropBlock_files_self] at hj
        by_cases hjk : j = k
        · subst hjk
          exact hsome j hhere
        · rw [update_of_ne hjk] at hj
          exact hsome j hj
      · exact ⟨hcov, hl, hstored, hsome⟩
    · exact ⟨h, hleft, rfl, fun _ hk => hk⟩
  exact wp_mono hloop (fun _ ht => ht) fun _ t ht => ⟨ht.1, ht.2.1⟩

/-- **A release**: the last path takes the blob with it, another one only counts down. -/
theorem pblockRefsRelease_spec {io : ReleaseIo} (h : Covered holds (o.blob :: owed) s)
    (hforget : io.Forgets s o) :
    wp (fun t => Covered holds owed t ∧ Left holds o.blob s t) (pblockRefsRelease io o)
      (fun _ t => Covered holds owed t ∧ Left holds o.blob s t) s := by
  rw [pblockRefsRelease, wp_bind, wp_gets, wp_ite, wp_ite]
  split
  · exact (wp_pure _ _).mpr ⟨h.forget, .refl s⟩
  next hcounts =>
  split
  · next hone =>
    have hcounts' : io.counts = true := by simpa using hcounts
    obtain ⟨hfree, howed⟩ := h.counted.unheld hone
    rw [wp_bind, wp_attempt]
    split
    · next hdrops =>
      have hdrop := h.forget.dropRow hone
      have hleft : Left holds o.blob s (s.setBlob o.blob none) :=
        ⟨rfl, rfl, fun _ hc => update_of_ne hc _ _, fun _ _ _ => rfl⟩
      refine ⟨⟨hdrop, hleft⟩, refsRemove_spec hdrop hleft hfree howed ?_⟩
      intro k _ _ _
      simp [PblockExport.storedHash, PblockExport.setBlob]
    · next hdrops =>
      refine refsRemove_spec h.forget (.refl s) hfree howed ?_
      intro k hk hhere hunlink
      by_contra hne
      exact hdrops (hforget ⟨hcounts', hone, k, hk, hhere, hunlink⟩ hne)
  · next hmany =>
    rw [wp_bind, wp_attempt]
    split
    · have hlower := h.lower (Nat.lt_of_not_le hmany)
      have hleft : Left holds o.blob s (s.lower o.blob) :=
        ⟨rfl, rfl, fun _ hc => update_of_ne hc _ _, fun _ _ _ => rfl⟩
      exact ⟨⟨hlower, hleft⟩, (wp_pure _ _).mpr ⟨hlower, hleft⟩⟩
    · exact (wp_pure _ _).mpr ⟨h.forget, .refl s⟩

theorem pblockRefsRelease_keeps {own : List P} {io : ReleaseIo} (hk : Keeps own st s)
    (h : Covered s.holds [o.blob] s) (hforget : io.Forgets s o) :
    wp (Keeps own st) (pblockRefsRelease io o) (fun _ => Keeps own st) s := by
  have hkeep : ∀ t, Covered s.holds [] t ∧ Left s.holds o.blob s t → Keeps own st t := by
    rintro t ⟨hcov, hleft⟩
    exact hk.left hcov hleft
  exact wp_mono (pblockRefsRelease_spec h hforget) hkeep fun _ t ht => hkeep t ht

/-- A release that neither unlinks nor lowers keeps the counts and the rows. -/
theorem pblockRefsRelease_idle {own : List P} {io : ReleaseIo} (hk : Keeps own st s)
    (hunlinks : ¬io.Unlinks s o) (hlowers : ¬io.Lowers s o) :
    wp (Keeps own st) (pblockRefsRelease io o)
      (fun _ t => Keeps own st t ∧ t.objects = s.objects) s := by
  rw [pblockRefsRelease, wp_bind, wp_gets, wp_ite, wp_ite]
  split
  · exact (wp_pure _ _).mpr ⟨hk, rfl⟩
  next hcounts =>
  have hcounts' : io.counts = true := by simpa using hcounts
  split
  · next hone =>
    have hloop : ∀ t, Keeps own st t → t.objects = s.objects → t.files = s.files →
        wp (Keeps own st) (refsRemove io.unlinks o)
          (fun _ t => Keeps own st t ∧ t.objects = s.objects) t := by
      intro t ht hobj hfiles
      refine wp_mono (wp_forEach (fun u => Keeps own st u ∧ u.objects = s.objects ∧
        u.files = s.files) ?_ ⟨ht, hobj, hfiles⟩) (fun _ hu => hu) fun _ u hu => ⟨hu.1, hu.2.1⟩
      rintro k hkr u ⟨hu, huobj, hufiles⟩
      simp only [refsUnlinkBlock, wp_bind, wp_gets, wp_attempt, wp_pure]
      split
      · next hgo =>
        obtain ⟨hhere, hunlink⟩ := Bool.and_eq_true_iff.mp hgo
        have hlt := mem_range.mp hkr
        rw [hufiles] at hhere
        exact absurd ⟨hcounts', hone, k, by omega, hhere, hunlink⟩ hunlinks
      · exact ⟨hu, huobj, hufiles⟩
    rw [wp_bind, wp_attempt]
    split
    · have hdrop : Keeps own st (s.setBlob o.blob none) :=
        hk.trans (.of_blobs ⟨hk.safe.idle, hk.safe.covered.dropRow hone⟩ rfl rfl)
      exact ⟨hdrop, hloop _ hdrop rfl rfl⟩
    · exact hloop s hk rfl rfl
  · next hmany =>
    rw [wp_bind, wp_attempt]
    split
    · next hlow => exact absurd ⟨hcounts', Nat.lt_of_not_le hmany, hlow⟩ hlowers
    · exact (wp_pure _ _).mpr ⟨hk, rfl⟩

end BrixCache
