import BrixCache.Lib.Run
import BrixCache.SdCache.Partial

/-!
# Slice mode while the origin changes

One object in slice mode, over a sequence of origin versions no two of which have
the same mtime: any number of handles open, read and close, and the origin moves
on to its next version while none is open. The cache starts with nothing
recorded.
-/

namespace BrixCache

open Function

/-- An open handle, and the version that it reads -/
structure SliceHandle : Type where
  obj : PartialObj
  version : ℕ
  /-- the mtime that what its bitmap had at the open was recorded for -/
  adopted : Option UInt64

/-- What a `pread` returned. -/
structure SliceRead : Type where
  /-- the version its handle was opened at -/
  version : ℕ
  len : ℕ
  off : ℕ
  bytes : List UInt8

/-- The origin's current version, the cache, the handles by number, and what
was read. -/
structure SliceState : Type where
  version : ℕ
  store : SliceStore
  handles : ℕ → Option SliceHandle
  served : List SliceRead

/-- A call, with what happens during it. -/
inductive SliceAct : Type where
  | partialOpen (id : ℕ) (policy : SlicePolicy) (hint : UInt64) : SliceAct
  | openFailed (sized : Bool) : SliceAct
  | pread (id len off : ℕ) (env : ℕ → BlockFill) : SliceAct
  | close (id : ℕ) : SliceAct
  /-- the origin's next version -/
  | change : SliceAct

/-- One call on the object of `origin`. -/
inductive SliceStep (origin : ℕ → OriginVersion) : SliceState → SliceAct → SliceState → Prop where
  | partialOpen {s : SliceState} {id : ℕ} {policy : SlicePolicy} {hint : UInt64} {p : PartialObj}
      {c : SliceStore} (hfree : s.handles id = none)
      (hopen : sdCachePartialOpen policy hint (origin s.version) s.store = (p, c)) :
      SliceStep origin s (.partialOpen id policy hint)
        { s with
          store := c
          handles := update s.handles id (some
            { obj := p, version := s.version,
              adopted := if p.trusts then s.store.slot.map (·.originMtime) else none }) }
  | openFailed (s : SliceState) (sized : Bool) :
      SliceStep origin s (.openFailed sized)
        { s with store := if sized then
            { s.store with
              file := some (cstorePartialOpen 0 s.store.file (origin s.version).content.length) }
            else s.store }
  | pread {s : SliceState} {id len off : ℕ} {env : ℕ → BlockFill} {h : SliceHandle}
      {c : SliceStore} {p : PartialObj} {bytes : List UInt8} (hopen : s.handles id = some h)
      (hread : sdCachePread (origin s.version).content env s.store h.obj len off =
        (.ok bytes, c, p)) :
      SliceStep origin s (.pread id len off env)
        { s with
          store := c
          handles := update s.handles id (some { h with obj := p })
          served := ⟨h.version, len, off, bytes⟩ :: s.served }
  | preadFailed {s : SliceState} {id len off : ℕ} {env : ℕ → BlockFill} {h : SliceHandle}
      {c : SliceStore} {p : PartialObj} {e : Errno} (hopen : s.handles id = some h)
      (hread : sdCachePread (origin s.version).content env s.store h.obj len off =
        (.error e, c, p)) :
      SliceStep origin s (.pread id len off env)
        { s with
          store := c
          handles := update s.handles id (some { h with obj := p }) }
  | close {s : SliceState} {id : ℕ} {h : SliceHandle} (hopen : s.handles id = some h) :
      SliceStep origin s (.close id) { s with handles := update s.handles id none }
  | change {s : SliceState} (hnone : ∀ id, s.handles id = none)
      (hfresh : ∀ k, k ≤ s.version → (origin k).mtime ≠ (origin (s.version + 1)).mtime) :
      SliceStep origin s .change { s with version := s.version + 1 }

/-- Only the version of the open is served. -/
structure SliceKept (origin : ℕ → OriginVersion) (s : SliceState) : Prop where
  /-- a read returns what the version its handle was opened at has there -/
  served : ∀ r ∈ s.served, r.bytes = File.pread (origin r.version).content r.off r.len
  trusted : ∀ id h, s.handles id = some h → ∀ t, h.adopted = some t →
    t = (origin h.version).mtime

/-- The opens that go right: a record of the source's size has its mtime too. -/
def SliceGood (origin : ℕ → OriginVersion) (s : SliceState) : SliceAct → Prop
  | .partialOpen _ _ _ => ∀ m, s.store.slot = some m →
      m.fileSize.toUInt64 = (origin s.version).size → m.originMtime = (origin s.version).mtime
  | _ => True

/-- The start: no record, no handle, nothing read. -/
structure SliceState.Init (s : SliceState) : Prop where
  slot : s.store.slot = none
  handles : ∀ id, s.handles id = none
  served : s.served = []

/-! ## The invariant -/

/-- What good steps keep. -/
structure SliceInv (origin : ℕ → OriginVersion) (s : SliceState) : Prop where
  store : s.store.Holds (origin s.version)
  past : ∀ m, s.store.slot = some m → ∃ k, k ≤ s.version ∧ m.originMtime = (origin k).mtime
  handles : ∀ id h, s.handles id = some h →
    h.version = s.version ∧ h.obj.Holds s.store (origin s.version)
  kept : SliceKept origin s

variable {origin : ℕ → OriginVersion} {s s' : SliceState} {a : SliceAct}

theorem SliceState.Init.inv (h : s.Init) : SliceInv origin s := by
  have hslot : ∀ m, s.store.slot ≠ some m := by
    intro m hm
    rw [h.slot] at hm
    cases hm
  have hhandles : ∀ id x, s.handles id ≠ some x := by
    intro id x hx
    rw [h.handles id] at hx
    cases hx
  refine ⟨⟨fun m hm => absurd hm (hslot m), fun m hm => absurd hm (hslot m)⟩,
    fun m hm => absurd hm (hslot m), fun id x hx => absurd hx (hhandles id x), ?_,
    fun id x hx => absurd hx (hhandles id x)⟩
  intro r hr
  rw [h.served] at hr
  cases hr

theorem SliceInv.past_of_advances (h : SliceInv origin s) {c : SliceStore}
    (hadv : SliceStore.Advances (origin s.version) s.store c) :
    ∀ m, c.slot = some m → ∃ k, k ≤ s.version ∧ m.originMtime = (origin k).mtime := by
  intro m hm
  rcases hadv.mtime m hm with hold | hnew
  · exact h.past m hold
  · exact ⟨s.version, Nat.le_refl _, hnew⟩

theorem SliceInv.handles_update (h : SliceInv origin s) {c : SliceStore}
    (hadv : SliceStore.Advances (origin s.version) s.store c) {id : ℕ} {x : SliceHandle}
    (hx : x.version = s.version ∧ x.obj.Holds c (origin s.version)) :
    ∀ id' y, update s.handles id (some x) id' = some y →
      y.version = s.version ∧ y.obj.Holds c (origin s.version) := by
  intro id' y hy
  by_cases hid : id' = id
  · subst hid
    rw [update_self] at hy
    cases hy
    exact hx
  · rw [update_of_ne hid] at hy
    obtain ⟨hver, hobj⟩ := h.handles id' y hy
    exact ⟨hver, hobj.mono hadv⟩

theorem SliceKept.trusted_update (h : SliceKept origin s) {id : ℕ} {x : SliceHandle}
    (hx : ∀ t, x.adopted = some t → t = (origin x.version).mtime) :
    ∀ id' y, update s.handles id (some x) id' = some y →
      ∀ t, y.adopted = some t → t = (origin y.version).mtime := by
  intro id' y hy
  by_cases hid : id' = id
  · subst hid
    rw [update_self] at hy
    cases hy
    exact hx
  · rw [update_of_ne hid] at hy
    exact h.trusted id' y hy

/-- **One step** that meets the condition keeps the invariant. -/
theorem SliceInv.step (h : SliceInv origin s) (hstep : SliceStep origin s a s')
    (hgood : SliceGood origin s a) : SliceInv origin s' := by
  cases hstep with
  | @partialOpen id policy hint p c hfree hopen =>
    obtain ⟨hadv, hstore, hobj⟩ := sdCachePartialOpen_spec policy hint h.store hgood
    rw [hopen] at hadv hstore hobj
    refine ⟨hstore, h.past_of_advances hadv, h.handles_update hadv ⟨rfl, hobj⟩,
      h.kept.served, h.kept.trusted_update ?_⟩
    -- what the bitmap has came from a record of the same size
    intro t ht
    rcases htrust : p.trusts with _ | _
    · rw [htrust, if_neg Bool.false_ne_true] at ht
      cases ht
    · rw [htrust, if_pos rfl] at ht
      obtain ⟨m, hm, rfl⟩ := Option.map_eq_some_iff.mp ht
      rw [PartialObj.trusts, List.any_eq_true] at htrust
      obtain ⟨b, -, hb⟩ := htrust
      have hp : p = partialAdoptBitmap s.store.slot _ := (congrArg Prod.fst hopen).symm
      rw [hp] at hb
      obtain ⟨m', hm', hsize, -⟩ := of_present_partialAdoptBitmap hb
      rw [hm] at hm'
      cases hm'
      exact hgood m hm hsize
  | openFailed sized =>
    have hadv : SliceStore.Advances (origin s.version) s.store
        (if sized then
          { s.store with
            file := some (cstorePartialOpen 0 s.store.file (origin s.version).content.length) }
          else s.store) := by
      cases sized with
      | false => exact .refl _ _
      | true => exact ⟨fun i hi => cstorePartialOpen_copied _ hi, fun m hm => .inl hm⟩
    have hslot : (if sized then
          { s.store with
            file := some (cstorePartialOpen 0 s.store.file (origin s.version).content.length) }
          else s.store).slot = s.store.slot := by
      cases sized <;> rfl
    refine ⟨⟨?_, ?_⟩, h.past_of_advances hadv, ?_, h.kept.served,
      h.kept.trusted⟩
    · intro m hm
      exact h.store.record m (hslot ▸ hm)
    · exact fun m hm hs ht b hb => hadv.block (h.store.blocks m (hslot ▸ hm) hs ht b hb)
    · intro id x hx
      obtain ⟨hver, hobj⟩ := h.handles id x hx
      exact ⟨hver, hobj.mono hadv⟩
  | @pread id len off env x c p bytes hopen hread =>
    obtain ⟨hver, hobj⟩ := h.handles _ _ hopen
    obtain ⟨hserved, hbytes⟩ := sdCachePread_spec env len off h.store hobj
    rw [hread] at hserved hbytes
    refine ⟨hserved.store, h.past_of_advances hserved.advances,
      h.handles_update hserved.advances ⟨hver, hserved.handle⟩, ?_,
      h.kept.trusted_update (h.kept.trusted id x hopen : ∀ t, x.adopted = some t → _)⟩
    intro r hr
    rcases List.mem_cons.mp hr with rfl | hold
    · rw [hver]
      exact hbytes bytes rfl
    · exact h.kept.served r hold
  | @preadFailed id len off env x c p e hopen hread =>
    obtain ⟨hver, hobj⟩ := h.handles _ _ hopen
    obtain ⟨hserved, -⟩ := sdCachePread_spec env len off h.store hobj
    rw [hread] at hserved
    exact ⟨hserved.store, h.past_of_advances hserved.advances,
      h.handles_update hserved.advances ⟨hver, hserved.handle⟩, h.kept.served,
      h.kept.trusted_update (h.kept.trusted id x hopen : ∀ t, x.adopted = some t → _)⟩
  | @close id x hopen =>
    have hsub : ∀ id' y, update s.handles id none id' = some y →
        s.handles id' = some y := by
      intro id' y hy
      by_cases hid : id' = id
      · subst hid
        rw [update_self] at hy
        cases hy
      · rw [update_of_ne hid] at hy
        exact hy
    exact ⟨h.store, h.past, fun id' y hy => h.handles id' y (hsub id' y hy), h.kept.served,
      fun id' y hy => h.kept.trusted id' y (hsub id' y hy)⟩
  | change hnone hfresh =>
    have hother : ∀ m, s.store.slot = some m →
        m.originMtime ≠ (origin (s.version + 1)).mtime := by
      intro m hm heq
      obtain ⟨k, hk, hmtime⟩ := h.past m hm
      exact hfresh k hk (hmtime.symm.trans heq)
    refine ⟨⟨h.store.record, fun m hm _ ht => absurd ht (hother m hm)⟩, ?_, ?_,
      h.kept.served, h.kept.trusted⟩
    · intro m hm
      obtain ⟨k, hk, hmtime⟩ := h.past m hm
      exact ⟨k, Nat.le_succ_of_le hk, hmtime⟩
    · intro id x hx
      rw [hnone id] at hx
      cases hx

theorem SliceInv.not_kept_of_bad (h : SliceInv origin s) (hstep : SliceStep origin s a s')
    (hbad : ¬ SliceGood origin s a) : ¬ SliceKept origin s' := by
  intro hkept
  cases hstep with
  | @partialOpen id policy hint p c hfree hopen =>
    rw [SliceGood] at hbad
    push Not at hbad
    obtain ⟨m, hm, hsize, hne⟩ := hbad
    have hp : p = partialAdoptBitmap s.store.slot _ := (congrArg Prod.fst hopen).symm
    have htrust : p.trusts = true := by
      rw [hp, hm]
      exact partialAdoptBitmap_trusts (h.store.record m hm) hsize rfl rfl
    refine hne (hkept.trusted id _ (update_self _ _ _) m.originMtime ?_)
    rw [htrust, if_pos rfl, hm]
    rfl
  | openFailed | pread | preadFailed | close | change => exact hbad trivial

/-! ## Runs -/

/-- The system restricted to good opens. -/
def SliceGoodStep (origin : ℕ → OriginVersion) (s : SliceState) (a : SliceAct)
    (s' : SliceState) : Prop := SliceStep origin s a s' ∧ SliceGood origin s a

theorem sliceInv_run {s₀ : SliceState} {as : List SliceAct} (hinit : s₀.Init)
    (hrun : Run (SliceGoodStep origin) s₀ as s) : SliceInv origin s :=
  hrun.invariant (fun _ _ _ h hstep => h.step hstep.1 hstep.2) hinit.inv

/-- **When slices are of the current version.** In every run whose opens find no
record of the source's size and another mtime, every read returns what the
version of its open has, and no handle trusts what was recorded for another
mtime; and the first open that does find one trusts it. -/
theorem sliceKept_iff_good {s₀ : SliceState} {as : List SliceAct} (hinit : s₀.Init)
    (hrun : Run (SliceGoodStep origin) s₀ as s) :
    SliceKept origin s ∧
      ∀ a s', SliceStep origin s a s' → (SliceKept origin s' ↔ SliceGood origin s a) := by
  have hinv := sliceInv_run hinit hrun
  refine ⟨hinv.kept, fun a s' hstep => ⟨?_, fun hgood => (hinv.step hstep hgood).kept⟩⟩
  intro hkept
  exact Classical.byContradiction fun hbad => hinv.not_kept_of_bad hstep hbad hkept

/-- Four bytes, then whatever comes next. -/
def sampleOrigin (next : List UInt8) (hfits : next.length < 2 ^ 63) : ℕ → OriginVersion
  | 0 => ⟨[1, 2, 3, 4], 1, 0o644, by decide⟩
  | _ + 1 => ⟨next, 2, 0o644, hfits⟩

/-- Nothing cached, nothing open. -/
def sampleSliceState : SliceState := ⟨0, ⟨none, none⟩, fun _ => none, []⟩

theorem sampleSliceState_init : sampleSliceState.Init := ⟨rfl, fun _ => rfl, rfl⟩

/-- Slices of one mebibyte, hints ignored. -/
def sampleSlicePolicy : SlicePolicy := ⟨1048576, 0, 0⟩

def allCopied : ℕ → BlockFill := fun _ => .copied 0 .saved

theorem sliceKept_iff_good_sample :
    ∃ s, Run (SliceGoodStep (sampleOrigin [5, 6, 7, 8, 9] (by decide))) sampleSliceState
        [.partialOpen 0 sampleSlicePolicy 0, .pread 0 4 0 allCopied, .close 0, .change,
          .partialOpen 0 sampleSlicePolicy 0, .pread 0 9 1 allCopied] s ∧
      SliceKept (sampleOrigin [5, 6, 7, 8, 9] (by decide)) s ∧
      ∀ a s', SliceStep (sampleOrigin [5, 6, 7, 8, 9] (by decide)) s a s' →
        (SliceKept (sampleOrigin [5, 6, 7, 8, 9] (by decide)) s' ↔
          SliceGood (sampleOrigin [5, 6, 7, 8, 9] (by decide)) s a) := by
  have hrun : ∃ s, Run (SliceGoodStep (sampleOrigin [5, 6, 7, 8, 9] (by decide)))
      sampleSliceState [.partialOpen 0 sampleSlicePolicy 0, .pread 0 4 0 allCopied, .close 0,
        .change, .partialOpen 0 sampleSlicePolicy 0, .pread 0 9 1 allCopied] s := by
    refine ⟨_, .cons ⟨.partialOpen rfl rfl, ?_⟩ (.cons ⟨.pread rfl rfl, trivial⟩
      (.cons ⟨.close rfl, trivial⟩ (.cons ⟨.change ?_ ?_, trivial⟩
        (.cons ⟨.partialOpen rfl rfl, ?_⟩ (.cons ⟨.pread rfl rfl, trivial⟩ (.nil _))))))⟩
    · rintro m ⟨⟩
    · intro id
      rcases id with _ | id <;> rfl
    · intro k hk
      obtain rfl := Nat.le_zero.mp hk
      decide
    · rintro m ⟨⟩ hsize
      exact absurd hsize (by decide)
  obtain ⟨s, hs⟩ := hrun
  exact ⟨s, hs, sliceKept_iff_good sampleSliceState_init hs⟩

/-- A file overwritten by another of the same size between two opens: the second
reads the first one's bytes. -/
theorem same_size_change_serves_old_bytes :
    ∃ s, Run (SliceStep (sampleOrigin [5, 6, 7, 8] (by decide))) sampleSliceState
        [.partialOpen 0 sampleSlicePolicy 0, .pread 0 4 0 allCopied, .close 0, .change,
          .partialOpen 0 sampleSlicePolicy 0, .pread 0 4 0 allCopied] s ∧
      (∃ rs, s.served = ⟨1, 4, 0, [1, 2, 3, 4]⟩ :: rs) ∧
      ¬ SliceKept (sampleOrigin [5, 6, 7, 8] (by decide)) s := by
  have hrun : ∃ s, Run (SliceStep (sampleOrigin [5, 6, 7, 8] (by decide))) sampleSliceState
      [.partialOpen 0 sampleSlicePolicy 0, .pread 0 4 0 allCopied, .close 0, .change,
        .partialOpen 0 sampleSlicePolicy 0, .pread 0 4 0 allCopied] s ∧
      ∃ rs, s.served = ⟨1, 4, 0, [1, 2, 3, 4]⟩ :: rs := by
    refine ⟨_, .cons (.partialOpen rfl rfl) (.cons (.pread rfl rfl) (.cons (.close rfl)
      (.cons (.change ?_ ?_) (.cons (.partialOpen rfl rfl) (.cons (.pread rfl rfl)
        (.nil _)))))), _, rfl⟩
    · intro id
      rcases id with _ | id <;> rfl
    · intro k hk
      obtain rfl := Nat.le_zero.mp hk
      decide
  obtain ⟨s, hs, rs, hserved⟩ := hrun
  refine ⟨s, hs, ⟨rs, hserved⟩, fun hkept => ?_⟩
  have hread := hkept.served ⟨1, 4, 0, [1, 2, 3, 4]⟩ (hserved ▸ List.mem_cons_self)
  exact absurd hread (by decide)

end BrixCache
