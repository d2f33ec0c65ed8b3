import BrixCache.Cache.Cinfo
import BrixCache.Lib.Run

/-!
# Marking dirty and flushing

One path's record under writers that mark ranges dirty and a flusher that reads
the dirty extent, writes it back and marks the record clean. Every call is one
step under the path's lock; the flush is three of them, with marks in between.

Beside the record the state keeps what the record should account for: the
ranges no completed flush covers, apart those marked after the current flush
read the extent, and the ranges marked since the record was last clean.
-/

namespace BrixCache

open List

/-- Where the flusher is -/
inductive FlushPhase : Type where
  | idle : FlushPhase
  | read : Extent → FlushPhase
  | written : Extent → FlushPhase

/-- The record, the flusher, and what was marked when -/
structure FlushState : Type where
  slot : Option Xmeta
  phase : FlushPhase
  /-- marked and not covered by a completed flush, but for `after` -/
  before : List Extent
  /-- marked since the flusher read the extent it is flushing -/
  after : List Extent
  /-- marked since the last `mark_clean` -/
  since : List Extent

/-- A call, with the time it reads. -/
inductive FlushAct : Type where
  /-- `brix_cache_cinfo_mark_dirty` that returns OK -/
  | markDirty (now : Int64) (off len : UInt64) : FlushAct
  /-- a call that fails and saves nothing -/
  | failed : FlushAct
  /-- `brix_cache_cinfo_dirty_extent` -/
  | readExtent : FlushAct
  /-- the transfer to the origin -/
  | writeBack : FlushAct
  /-- `brix_cache_cinfo_mark_clean` that returns OK -/
  | markClean (now : Int64) (bytes : UInt64) : FlushAct
  /-- the flush is given up, or its `mark_clean` fails -/
  | giveUp : FlushAct

/-- One call, by writers with the validity key `key` or by the flusher. -/
inductive FlushStep (key : CinfoKey) : FlushState → FlushAct → FlushState → Prop where
  | markDirty {s : FlushState} {now : Int64} {off len : UInt64} {m : Xmeta}
      (hlt : off.toNat < off.toNat + len.toNat) (hfit : off.toNat + len.toNat < 2 ^ 64)
      (hsave : cinfoMarkDirty now s.slot key off len = .ok m) (hidle : s.phase = .idle) :
      FlushStep key s (.markDirty now off len)
        { s with
          slot := cinfoWrite m
          before := ⟨off.toNat, off.toNat + len.toNat, hlt⟩ :: s.before
          since := ⟨off.toNat, off.toNat + len.toNat, hlt⟩ :: s.since }
  | markDirtyFlushing {s : FlushState} {now : Int64} {off len : UInt64} {m : Xmeta}
      (hlt : off.toNat < off.toNat + len.toNat) (hfit : off.toNat + len.toNat < 2 ^ 64)
      (hsave : cinfoMarkDirty now s.slot key off len = .ok m) (hbusy : s.phase ≠ .idle) :
      FlushStep key s (.markDirty now off len)
        { s with
          slot := cinfoWrite m
          after := ⟨off.toNat, off.toNat + len.toNat, hlt⟩ :: s.after
          since := ⟨off.toNat, off.toNat + len.toNat, hlt⟩ :: s.since }
  | failed (s : FlushState) : FlushStep key s .failed s
  | readExtent {s : FlushState} {lo hi since : UInt64} (hidle : s.phase = .idle)
      (hread : cinfoDirtyExtent s.slot = .ok (lo, hi, since)) (hlt : lo.toNat < hi.toNat) :
      FlushStep key s .readExtent { s with phase := .read ⟨lo.toNat, hi.toNat, hlt⟩ }
  | readClean {s : FlushState} (hidle : s.phase = .idle)
      (hread : cinfoDirtyExtent s.slot = .error .declined) : FlushStep key s .readExtent s
  | writeBack {s : FlushState} {e : Extent} (hphase : s.phase = .read e) :
      FlushStep key s .writeBack { s with phase := .written e }
  | markClean {s : FlushState} {e : Extent} {now : Int64} {bytes : UInt64} {m : Xmeta}
      (hphase : s.phase = .written e) (hsave : cinfoMarkClean now s.slot bytes = .ok m) :
      FlushStep key s (.markClean now bytes)
        { slot := cinfoWrite m
          phase := .idle
          before := s.after ++ s.before.filter fun f => !(decide (e.lo ≤ f.lo ∧ f.hi ≤ e.hi))
          after := []
          since := [] }
  | giveUp {s : FlushState} (hbusy : s.phase ≠ .idle) :
      FlushStep key s .giveUp { s with phase := .idle, before := s.after ++ s.before, after := [] }

/-- The recorded dirty extent of a path. -/
def recordedExtent (rec : Option Xmeta) : Option Extent := rec.bind Xmeta.extent

/-- Nothing marked is lost, and between flushes the record is exact. -/
structure DirtyKept (s : FlushState) : Prop where
  owed : ∀ e ∈ s.before ++ s.after, ∀ b, Extent.Mem b e →
    ∃ h, recordedExtent s.slot = some h ∧ Extent.Mem b h
  /-- with no flush in progress, the extent is the hull of what was marked since
  the last `mark_clean` -/
  exact : s.phase = .idle → recordedExtent s.slot = Extent.hull s.since

/-- The steps that go right: a mark that adopts a record finds a STATE section
in it, and nothing was marked between a flusher's read and its `mark_clean`. -/
def FlushGood (key : CinfoKey) (s : FlushState) : FlushAct → Prop
  | .markDirty _ _ _ => ∀ m, s.slot = some m → cinfoMatches m key = true → m.haveState = true
  | .markClean _ _ => s.after = []
  | _ => True

/-- A path before anything was marked: no record, or a clean one. -/
structure FlushState.Init (s : FlushState) : Prop where
  clean : recordedExtent s.slot = none
  idle : s.phase = .idle
  before : s.before = []
  after : s.after = []
  since : s.since = []

/-! ## The invariant -/

/-- What good steps keep. -/
structure FlushInv (key : CinfoKey) (s : FlushState) : Prop where
  exact : recordedExtent s.slot = Extent.hull s.since
  owed : ∀ e ∈ s.before ++ s.after, e ∈ s.since
  /-- once something is marked the record is of this key, with a STATE section -/
  record : s.since ≠ [] → ∃ m, s.slot = some m ∧ cinfoMatches m key = true ∧ m.haveState = true
  idle : s.phase = .idle → s.after = []
  /-- the extent being flushed covers what was owed when it was read -/
  covered : ∀ e, s.phase = .read e ∨ s.phase = .written e →
    ∀ f ∈ s.before, e.lo ≤ f.lo ∧ f.hi ≤ e.hi

variable {key : CinfoKey} {s s' : FlushState} {a : FlushAct}

theorem FlushState.Init.inv (h : s.Init) : FlushInv key s := by
  refine ⟨?_, ?_, ?_, fun _ => h.after, ?_⟩
  · rw [h.clean, h.since]
    rfl
  · intro e he
    rw [h.before, h.after] at he
    cases he
  · intro hne
    exact absurd h.since hne
  · intro e hphase
    rw [h.idle] at hphase
    rcases hphase with hp | hp <;> cases hp

theorem FlushInv.kept (h : FlushInv key s) : DirtyKept s := by
  refine ⟨?_, fun _ => h.exact⟩
  intro e he b hb
  obtain ⟨f, hf, hmem⟩ := Extent.mem_hull (h.owed e he) hb
  exact ⟨f, h.exact.trans hf, hmem⟩

theorem cinfoMarkClean_recorded {now : Int64} {rec : Option Xmeta} {bytes : UInt64} {m : Xmeta}
    (h : cinfoMarkClean now rec bytes = .ok m) : recordedExtent (cinfoWrite m) = none := by
  calc recordedExtent (cinfoWrite m) = m.persisted.extent := rfl
    _ = none := by
      rcases hs : m.haveState with _ | _
      · exact Xmeta.persisted_extent_of_no_state hs
      · rw [Xmeta.persisted_extent hs, cinfoMarkClean_extent h]

theorem cinfoMarkDirty_recorded_bad {now : Int64} {rec : Option Xmeta} {off len : UInt64}
    {m : Xmeta} (hfit : off.toNat + len.toNat < 2 ^ 64)
    (hsave : cinfoMarkDirty now rec key off len = .ok m)
    (hbad : ¬ ∀ m, rec = some m → cinfoMatches m key = true → m.haveState = true) :
    recordedExtent (cinfoWrite m) = none := by
  push Not at hbad
  obtain ⟨x, hx, hmatch, hno⟩ := hbad
  obtain ⟨xm, hlt, hbs, hload, hext, hframe⟩ := cinfoMarkDirty_eq_ok hfit hsave
  obtain ⟨-, hfrom⟩ := cinfoRmwLoad_eq_ok hbs hload
  rcases hfrom with hrec | ⟨hother, -⟩
  · rw [hx] at hrec
    cases hrec
    have hstate : m.haveState = false := by
      rw [hframe]
      exact Bool.not_eq_true _ ▸ hno
    exact Xmeta.persisted_extent_of_no_state hstate
  · rw [hother x hx] at hmatch
    cases hmatch

/-- A mark covers its bytes. -/
theorem FlushInv.mark (h : FlushInv key s) {now : Int64} {off len : UInt64} {m : Xmeta}
    (hgood : ∀ m, s.slot = some m → cinfoMatches m key = true → m.haveState = true)
    (hlt : off.toNat < off.toNat + len.toNat) (hfit : off.toNat + len.toNat < 2 ^ 64)
    (hsave : cinfoMarkDirty now s.slot key off len = .ok m) :
    recordedExtent (cinfoWrite m) =
        Extent.hull (⟨off.toNat, off.toNat + len.toNat, hlt⟩ :: s.since) ∧
      ∃ x, cinfoWrite m = some x ∧ cinfoMatches x key = true ∧ x.haveState = true := by
  obtain ⟨xm, hlt', hbs, hload, hext, hframe⟩ := cinfoMarkDirty_eq_ok hfit hsave
  obtain ⟨hmatch, hfrom⟩ := cinfoRmwLoad_eq_ok hbs hload
  -- the record started from has a STATE section, and its extent is the recorded one
  have hstart : xm.haveState = true ∧ xm.extent = Extent.hull s.since := by
    rcases hfrom with hrec | ⟨hother, hfresh⟩
    · refine ⟨hgood xm hrec hmatch, ?_⟩
      rw [← h.exact, hrec]
      rfl
    · have hstate := (cinfoToXmeta_eq_ok hfresh).2.2.2.2.1
      refine ⟨hstate, ?_⟩
      rw [cinfoToXmeta_init_extent hfresh]
      refine (Extent.hull_eq_none.mpr (Classical.byContradiction fun hne => ?_)).symm
      obtain ⟨x, hx, hxm, -⟩ := h.record hne
      rw [hother x hx] at hxm
      cases hxm
  have hstate : m.haveState = true := by
    rw [hframe]
    exact hstart.1
  have hkey : cinfoMatches m key = true := by
    rw [hframe]
    exact hmatch
  refine ⟨?_, m.persisted, rfl, ?_, hstate⟩
  · calc recordedExtent (cinfoWrite m) = m.persisted.extent := rfl
      _ = m.extent := Xmeta.persisted_extent hstate
      _ = _ := by rw [hext, hstart.2, Extent.hull_cons]
  · rw [Xmeta.persisted_matches hstate]
    exact hkey

/-- **One step** that meets the condition keeps the invariant. -/
theorem FlushInv.step (h : FlushInv key s) (hstep : FlushStep key s a s')
    (hgood : FlushGood key s a) : FlushInv key s' := by
  cases hstep with
  | markDirty hlt hfit hsave hidle =>
    obtain ⟨hext, hrec⟩ := h.mark hgood hlt hfit hsave
    refine ⟨hext, ?_, fun _ => hrec, h.idle, ?_⟩
    · intro e he
      rw [cons_append] at he
      rcases mem_cons.mp he with rfl | he'
      · exact mem_cons_self
      · exact mem_cons_of_mem _ (h.owed e he')
    · intro e hphase
      simp only [hidle] at hphase
      rcases hphase with hp | hp <;> cases hp
  | markDirtyFlushing hlt hfit hsave hbusy =>
    obtain ⟨hext, hrec⟩ := h.mark hgood hlt hfit hsave
    refine ⟨hext, ?_, fun _ => hrec, fun hidle => absurd hidle hbusy, h.covered⟩
    intro e he
    rcases mem_append.mp he with hb | ha
    · exact mem_cons_of_mem _ (h.owed e (mem_append_left _ hb))
    · rcases mem_cons.mp ha with rfl | ha'
      · exact mem_cons_self
      · exact mem_cons_of_mem _ (h.owed e (mem_append_right _ ha'))
  | failed | readClean => exact h
  | readExtent hidle hread hlt =>
    obtain ⟨m, hlt', hslot, hext⟩ := cinfoDirtyExtent_eq_ok hread
    refine ⟨h.exact, h.owed, h.record, (fun hp => by cases hp), ?_⟩
    -- what is owed is inside the hull of what was marked, which is what was read
    intro e hphase f hf
    obtain rfl : e = _ := by
      rcases hphase with hp | hp
      · exact (FlushPhase.read.inj hp).symm
      · cases hp
    have hrec : recordedExtent s.slot = some ⟨_, _, hlt'⟩ := by
      rw [hslot]
      exact hext
    rw [h.exact] at hrec
    have hmem := h.owed f (mem_append_left _ hf)
    have hlo : Extent.Mem f.lo f := ⟨Nat.le_refl _, f.lt⟩
    have hhi : Extent.Mem (f.hi - 1) f := by
      have hflt := f.lt
      exact ⟨by omega, by omega⟩
    obtain ⟨g, hg, hglo, -⟩ := Extent.mem_hull hmem hlo
    obtain ⟨g', hg', -, hghi⟩ := Extent.mem_hull hmem hhi
    rw [hrec] at hg hg'
    cases hg
    cases hg'
    have hflt := f.lt
    refine ⟨hglo, ?_⟩
    simp only at hghi ⊢
    omega
  | writeBack hphase =>
    refine ⟨h.exact, h.owed, h.record, (fun hp => by cases hp), ?_⟩
    intro e hp f hf
    rcases hp with hp | hp
    · cases hp
    · obtain rfl := FlushPhase.written.inj hp
      exact h.covered _ (.inl hphase) f hf
  | markClean hphase hsave =>
    have hafter : s.after = [] := hgood
    have hclean : recordedExtent (cinfoWrite _) = none := cinfoMarkClean_recorded hsave
    refine ⟨hclean, ?_, fun hne => absurd rfl hne, fun _ => rfl, ?_⟩
    · intro e he
      rw [append_nil, hafter, nil_append, mem_filter] at he
      have hcov := h.covered _ (.inr hphase) e he.1
      rw [decide_eq_true hcov] at he
      cases he.2
    · intro e hp
      rcases hp with hp | hp <;> cases hp
  | giveUp =>
    refine ⟨h.exact, ?_, h.record, fun _ => rfl, ?_⟩
    · intro e he
      rw [append_nil, mem_append] at he
      refine h.owed e (mem_append.mpr ?_)
      exact he.symm
    · intro e hp
      rcases hp with hp | hp <;> cases hp

theorem not_dirtyKept_of_bad (hstep : FlushStep key s a s')
    (hbad : ¬ FlushGood key s a) : ¬ DirtyKept s' := by
  intro hkept
  cases hstep with
  | markDirty hlt hfit hsave hidle =>
    have hnone := cinfoMarkDirty_recorded_bad hfit hsave hbad
    obtain ⟨f, hf, -⟩ := hkept.owed _ (mem_append_left _ mem_cons_self) _
      ⟨Nat.le_refl _, hlt⟩
    rw [hnone] at hf
    cases hf
  | markDirtyFlushing hlt hfit hsave hbusy =>
    have hnone := cinfoMarkDirty_recorded_bad hfit hsave hbad
    obtain ⟨f, hf, -⟩ := hkept.owed _ (mem_append_right _ mem_cons_self) _
      ⟨Nat.le_refl _, hlt⟩
    rw [hnone] at hf
    cases hf
  | failed | readExtent | readClean | writeBack | giveUp => exact hbad trivial
  | markClean hphase hsave =>
    have hclean : recordedExtent (cinfoWrite _) = none := cinfoMarkClean_recorded hsave
    obtain ⟨e, es, hafter⟩ := exists_cons_of_ne_nil (show s.after ≠ [] from hbad)
    have hmem : e ∈ s.after := by
      rw [hafter]
      exact mem_cons_self
    obtain ⟨f, hf, -⟩ := hkept.owed e
      (mem_append_left _ (mem_append_left _ hmem)) e.lo ⟨Nat.le_refl _, e.lt⟩
    rw [hclean] at hf
    cases hf

/-! ## Runs -/

/-- The system restricted to good steps. -/
def FlushGoodStep (key : CinfoKey) (s : FlushState) (a : FlushAct) (s' : FlushState) : Prop :=
  FlushStep key s a s' ∧ FlushGood key s a

theorem flushInv_run {s₀ : FlushState} {as : List FlushAct} (hinit : s₀.Init)
    (hrun : Run (FlushGoodStep key) s₀ as s) : FlushInv key s :=
  hrun.invariant (fun _ _ _ h hstep => h.step hstep.1 hstep.2) hinit.inv

/-- **When no dirty byte is lost.** In every run of good steps the bytes marked
and not covered by a completed flush stay inside the recorded extent, which
between flushes is exactly the hull of what was marked since the last
`mark_clean`; and the first step that is not good loses a byte. -/
theorem dirtyKept_iff_good {s₀ : FlushState} {as : List FlushAct} (hinit : s₀.Init)
    (hrun : Run (FlushGoodStep key) s₀ as s) :
    DirtyKept s ∧ ∀ a s', FlushStep key s a s' → (DirtyKept s' ↔ FlushGood key s a) := by
  have hinv := flushInv_run hinit hrun
  refine ⟨hinv.kept, fun a s' hstep => ⟨?_, fun hgood => (hinv.step hstep hgood).kept⟩⟩
  intro hkept
  exact Classical.byContradiction fun hbad => not_dirtyKept_of_bad hstep hbad hkept

/-- A hundred bytes in blocks of ten. -/
def sampleCinfoKey : CinfoKey := ⟨100, 10, 7⟩

/-- Nothing recorded, nothing marked. -/
def sampleFlushState : FlushState := ⟨none, .idle, [], [], []⟩

theorem sampleFlushState_init : sampleFlushState.Init := ⟨rfl, rfl, rfl, rfl, rfl⟩

theorem dirtyKept_iff_good_sample :
    ∃ s, Run (FlushGoodStep sampleCinfoKey) sampleFlushState
        [.markDirty 0 0 10, .readExtent, .writeBack, .markClean 0 10] s ∧
      DirtyKept s ∧ ∀ a s', FlushStep sampleCinfoKey s a s' →
        (DirtyKept s' ↔ FlushGood sampleCinfoKey s a) := by
  have hrun : ∃ s, Run (FlushGoodStep sampleCinfoKey) sampleFlushState
      [.markDirty 0 0 10, .readExtent, .writeBack, .markClean 0 10] s := by
    refine ⟨_, .cons ⟨.markDirty (by decide) (by decide) rfl rfl, ?_⟩
      (.cons ⟨.readExtent rfl rfl (by decide), trivial⟩
        (.cons ⟨.writeBack rfl, trivial⟩ (.cons ⟨.markClean rfl rfl, rfl⟩ (.nil _))))⟩
    rintro m ⟨⟩
  obtain ⟨s, hs⟩ := hrun
  exact ⟨s, hs, dirtyKept_iff_good sampleFlushState_init hs⟩

/-- A range marked while the extent is being written back is cleared with it:
byte 25 is owed, and the record is clean. -/
theorem mark_during_flush_lost :
    ∃ s, Run (FlushStep sampleCinfoKey) sampleFlushState
        [.markDirty 0 0 10, .readExtent, .writeBack, .markDirty 0 20 10, .markClean 0 10] s ∧
      (∃ e ∈ s.before, Extent.Mem 25 e) ∧ recordedExtent s.slot = none ∧ ¬ DirtyKept s := by
  have howed : (⟨20, 30, by decide⟩ : Extent) ∈ [(⟨20, 30, by decide⟩ : Extent)] ++
      [(⟨0, 10, by decide⟩ : Extent)].filter fun f => !(decide (0 ≤ f.lo ∧ f.hi ≤ 10)) :=
    mem_append_left _ mem_cons_self
  refine ⟨_, .cons (.markDirty (by decide) (by decide) rfl rfl)
    (.cons (.readExtent rfl rfl (by decide)) (.cons (.writeBack rfl)
      (.cons (.markDirtyFlushing (by decide) (by decide) rfl (by rintro ⟨⟩))
        (.cons (.markClean rfl rfl) (.nil _))))), ⟨_, howed, by decide, by decide⟩, rfl, ?_⟩
  intro hkept
  obtain ⟨f, hf, -⟩ := hkept.owed _ (mem_append_left _ howed) 25 ⟨by decide, by decide⟩
  cases hf

end BrixCache
