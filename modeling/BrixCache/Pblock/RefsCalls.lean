import BrixCache.Pblock.RefsInv

/-!
# What the calls keep

Each call of the driver on an export that is `Safe`: a fold, a broken share, a copy
and a create keep the other paths at every step, and so does a removal as long as it
is not stopped, or fails, between its release and the removal of the row.
-/

namespace BrixCache

open Proc Function List

variable {P B D : Type} {own : List P} {st s t : PblockExport P B D} {path : P}
  {o : PblockMeta B}

namespace ReleaseIo

variable {io : ReleaseIo}

theorem Unlinks.congr (hblobs : t.blobs o.blob = s.blobs o.blob)
    (hfiles : t.files o.blob = s.files o.blob) (h : io.Unlinks t o) : io.Unlinks s o := by
  obtain ⟨hcounts, hone, k, hk, hhere, hunlink⟩ := h
  rw [hfiles] at hhere
  refine ⟨hcounts, ?_, k, hk, hhere, hunlink⟩
  rwa [PblockExport.refsCount, ← hblobs]

theorem Forgets.congr (hblobs : t.blobs o.blob = s.blobs o.blob)
    (hfiles : t.files o.blob = s.files o.blob) (h : io.Forgets s o) : io.Forgets t o := by
  intro hunlinks hstored
  apply h (hunlinks.congr hblobs hfiles)
  rwa [PblockExport.storedHash, ← hblobs]

theorem Forgets.of_shared (h : 1 < s.refsCount o.blob) : io.Forgets s o := by
  rintro ⟨-, hone, -⟩
  omega

theorem Forgets.of_unrecorded (h : s.storedHash o.blob = none) : io.Forgets s o := by
  intro _ hstored
  exact absurd h hstored

end ReleaseIo

variable [DecidableEq B]

variable {b c : B}

theorem Safe.lost_of_holds (h : Safe s) (hp : s.holds path = some b) : s.lost b = false :=
  h.covered.held path b hp

theorem PblockExport.refsCount_bump (h : Safe s) (b : B) (size : ℕ) (bs : ℕ+) :
    (s.bump b size bs).refsCount b = s.refsCount b + 1 := by
  obtain ⟨r, heq, -, hcount, -⟩ := s.bump_eq b size bs
  obtain ⟨htwo, hsucc⟩ := hcount (h.covered.refcount b)
  rw [heq, refsCount_setBlob_some, hsucc]
  omega

theorem PblockExport.blobs_bump_of_ne (h : c ≠ b) (size : ℕ) (bs : ℕ+) :
    (s.bump b size bs).blobs c = s.blobs c := by
  obtain ⟨r, heq, -⟩ := s.bump_eq b size bs
  rw [heq]
  exact update_of_ne h _ _

theorem PblockExport.blobs_track_of_ne (h : c ≠ b) (size : ℕ) (bs : ℕ+)
    (hash : Option (ContentHash D)) : (s.track b size bs hash).blobs c = s.blobs c := by
  obtain ⟨n, heq, -⟩ := s.track_eq b size bs hash
  rw [heq]
  exact update_of_ne h _ _

theorem Keeps.bump (hk : Keeps own st s) (hb : s.lost b = false) (size : ℕ) (bs : ℕ+) :
    Keeps own st (s.bump b size bs) ∧ Covered (s.bump b size bs).holds [b] (s.bump b size bs) := by
  have hholds : (s.bump b size bs).holds = s.holds :=
    PblockExport.holds_congr (PblockExport.bump_objects s b size bs)
  have hdue := hk.safe.covered.bump size bs hb
  rw [hholds]
  refine ⟨hk.trans (.of_blobs ⟨?_, ?_⟩ (by simp) (by simp)), hdue⟩
  · rw [PblockExport.bump_saved]
    exact hk.safe.idle
  · rw [hholds]
    exact hdue.forget

theorem Keeps.track (hk : Keeps own st s) (hash : Option (ContentHash D))
    (hb : hash ≠ none → s.lost b = false) (size : ℕ) (bs : ℕ+) :
    Keeps own st (s.track b size bs hash) := by
  have hholds : (s.track b size bs hash).holds = s.holds :=
    PblockExport.holds_congr (PblockExport.track_objects s b size bs hash)
  refine hk.trans (.of_blobs ⟨?_, ?_⟩ (by simp) (by simp))
  · rw [PblockExport.track_saved]
    exact hk.safe.idle
  · rw [hholds]
    exact hk.safe.covered.track size bs hb

section

variable [DecidableEq D] {io : FoldIo B} {h : ContentHash D}

theorem PblockExport.survivor_spec {c : B} (hc : s.survivor io o h = some c) :
    ∃ r, s.blobs c = some r ∧ r.hash = some h ∧ r.size = o.size ∧ r.bs = o.bs ∧ c ≠ o.blob ∧
      1 ≤ r.refcount ∧ (h.trusted = true ∨ s.sameBytes o c = true) := by
  have hpred := find?_some hc
  obtain ⟨hnom, htrust⟩ := Bool.and_eq_true_iff.mp hpred
  rw [nominates] at hnom
  cases hrow : s.blobs c with
  | none =>
    rw [hrow] at hnom
    cases hnom
  | some r =>
    rw [hrow] at hnom
    obtain ⟨hhash, hsize, hbs, hne, hpos⟩ := of_decide_eq_true hnom
    refine ⟨r, rfl, hhash, hsize, hbs, hne, hpos, ?_⟩
    obtain ht | hcmp := Bool.or_eq_true_iff.mp htrust
    · exact .inl ht
    · exact .inr (Bool.and_eq_true_iff.mp hcmp).2

theorem PblockExport.survivor_congr (hblobs : ∀ c ≠ o.blob, t.blobs c = s.blobs c)
    (hfiles : t.files = s.files) : t.survivor io o h = s.survivor io o h := by
  rw [survivor, survivor]
  congr 1
  funext c
  by_cases hc : c = o.blob
  · have hnone : ∀ u : PblockExport P B D, u.nominates o h c = false := by
      intro u
      rw [nominates]
      split
      · rfl
      · simp [hc]
    rw [hnone, hnone, Bool.false_and, Bool.false_and]
  · rw [nominates, nominates, hblobs c hc, sameBytes, sameBytes, hfiles]

omit [DecidableEq D] in
theorem refsTrackKept_keeps (hk : Keeps own st s) {hash : Option (ContentHash D)}
    (hlost : hash ≠ none → s.lost o.blob = false) :
    wp (Keeps own st) (refsTrackKept io o hash) (fun _ => Keeps own st) s := by
  have htrack := hk.track hash hlost o.size o.bs
  simp only [refsTrackKept, wp_bind, wp_attempt, wp_pure]
  split
  · exact ⟨htrack, htrack⟩
  · exact hk

end

variable [DecidableEq P]

theorem Keeps.setObject (hk : Keeps own st s) (hpath : path ∈ own) {row : Option (PblockMeta B)}
    (hcov : Covered (update s.holds path (row.map (·.blob))) [] s) :
    Keeps own st (s.setObject path row) := by
  refine hk.trans ⟨⟨hk.safe.idle, ?_⟩, ?_, fun _ _ _ _ => rfl⟩
  · rw [PblockExport.holds_setObject]
    exact hcov.congr rfl rfl
  · intro q hq
    have hne : q ≠ path := fun heq => hq (heq ▸ hpath)
    exact update_of_ne hne _ _

theorem Keeps.repoint (hk : Keeps own st s) (hpath : path ∈ own)
    (hrow : s.objects path = some o) (hdue : Covered s.holds [c] s) :
    Keeps own st (s.repoint path c) ∧
      Covered (s.repoint path c).holds [o.blob] (s.repoint path c) := by
  have hholds : s.holds path = some o.blob := by
    rw [PblockExport.holds, hrow]
    rfl
  have hswap := hdue.swap hholds
  have hrepoint : (s.repoint path c).holds = update s.holds path (some c) := by
    rw [PblockExport.holds_repoint, hrow]
    rfl
  rw [hrepoint]
  refine ⟨?_, hswap.congr rfl rfl⟩
  apply hk.setObject hpath
  rw [hrow]
  exact hswap.forget

/-! ## Folding -/

section

variable [DecidableEq D] {io : FoldIo B} {h : ContentHash D}

/-- The fold switches the row and releases the path's own blob. -/
def FoldIo.Folds (io : FoldIo B) (s : PblockExport P B D) (o : PblockMeta B)
    (h : ContentHash D) : Prop :=
  s.survivor io o h ≠ none ∧ io.bumps = true ∧ io.repoints = true

/-- A fold by hash keeps the counts. -/
theorem refsFoldByHash_keeps (hk : Keeps own st s) (hpath : path ∈ own)
    {row : PblockMeta B} (hrow : s.objects path = some row) (hblob : row.blob = o.blob)
    (hforget : io.Folds s o h → io.own.Forgets s o) :
    wp (Keeps own st) (refsFoldByHash io path o h)
      (fun rc t => Keeps own st t ∧ (rc = .kept → t.holds = s.holds)) s := by
  rw [refsFoldByHash, wp_bind, wp_gets]
  cases hc : s.survivor io o h with
  | none => exact (wp_pure _ _).mpr ⟨hk, fun _ => rfl⟩
  | some c =>
    obtain ⟨r, hr, hhash, -, -, hne, -⟩ := s.survivor_spec hc
    have hlost : s.lost c = false := by
      apply hk.safe.covered.hashed c r hr
      rw [hhash]
      exact Option.some_ne_none h
    obtain ⟨hbump, hdue⟩ := hk.bump hlost o.size o.bs
    have hcount := PblockExport.refsCount_bump hk.safe c o.size o.bs
    have hpos := s.one_le_refsCount c
    simp only [wp_bind, wp_attempt, Bool.not_true, Bool.not_false, Bool.false_eq_true, if_false,
      if_true]
    split
    · next hbumps =>
      refine ⟨hbump, ?_⟩
      split
      · next hrepoints =>
        have hrow' : (s.bump c o.size o.bs).objects path = some row := by
          rw [PblockExport.bump_objects, hrow]
        obtain ⟨hrep, hown⟩ := hbump.repoint hpath hrow' hdue
        rw [hblob] at hown
        refine ⟨hrep, ?_⟩
        have hforget' : io.own.Forgets ((s.bump c o.size o.bs).repoint path c) o := by
          apply (hforget ⟨by simp [hc], hbumps, hrepoints⟩).congr
          · exact PblockExport.blobs_bump_of_ne (Ne.symm hne) _ _
          · exact congrFun (PblockExport.bump_files s c o.size o.bs) o.blob
        refine wp_mono (pblockRefsRelease_keeps hrep hown hforget') (fun _ ht => ht) ?_
        intro _ t ht
        exact (wp_pure _ _).mpr ⟨ht, (fun h => by cases h)⟩
      · have hshared : io.undo.Forgets (s.bump c o.size o.bs) { o with blob := c } :=
          .of_shared (by simp only; omega)
        refine wp_mono (pblockRefsRelease_keeps hbump hdue hshared) (fun _ ht => ht) ?_
        intro _ t ht
        exact (wp_pure _ _).mpr ⟨ht, (fun h => by cases h)⟩
    · exact (wp_pure _ _).mpr ⟨hk, fun _ => rfl⟩

theorem pblockRefsDedupPublish_keeps (hk : Keeps own st s) (hpath : path ∈ own)
    {hash : Option (ContentHash D)}
    (hrow : hash ≠ none → s.holds path = some o.blob)
    (hforget : ∀ h, hash = some h → io.Folds s o h → io.own.Forgets s o) :
    wp (Keeps own st) (pblockRefsDedupPublish io path o hash) (fun _ => Keeps own st) s := by
  rw [pblockRefsDedupPublish, wp_bind, wp_gets]
  cases hash with
  | none => exact refsTrackKept_keeps hk nofun
  | some h =>
    have hholds := hrow (Option.some_ne_none h)
    simp only [wp_ite, wp_bind]
    split
    · exact refsTrackKept_keeps hk fun _ => hk.safe.lost_of_holds hholds
    · obtain ⟨row, hobj, hblob⟩ := Option.map_eq_some_iff.mp hholds
      refine wp_mono (refsFoldByHash_keeps hk hpath hobj hblob (hforget h rfl))
        (fun _ ht => ht) ?_
      rintro rc t ⟨ht, hkept⟩
      cases rc with
      | kept =>
        apply refsTrackKept_keeps ht
        intro _
        apply ht.safe.lost_of_holds
        rw [hkept rfl]
        exact hholds
      | folded c | failed => exact (wp_pure _ _).mpr ht

/-- A fold of a path that is there keeps the counts. -/
theorem pblockRefsDedupExisting_keeps (digest : List UInt8 → D) (hk : Keeps own st s)
    (hpath : path ∈ own)
    (hforget : ∀ o h, s.objects path = some o → io.Folds s o h → io.own.Unlinks s o →
      io.own.drops = true) :
    wp (Keeps own st) (pblockRefsDedupExisting digest io path) (fun _ => Keeps own st) s := by
  rw [pblockRefsDedupExisting, wp_bind, wp_gets]
  cases hobj : s.objects path with
  | none => exact (wp_pure _ _).mpr hk
  | some o =>
    have hholds : s.holds path = some o.blob := by
      rw [PblockExport.holds, hobj]
      rfl
    have hlost := hk.safe.lost_of_holds hholds
    simp only [wp_ite, wp_bind, wp_gets]
    split
    · exact (wp_pure _ _).mpr hk
    split
    · exact (wp_pure _ _).mpr hk
    split
    · exact (wp_pure _ _).mpr hk
    cases hstored : s.storedHash o.blob with
    | some h =>
      refine wp_mono (refsFoldByHash_keeps hk hpath hobj rfl ?_) (fun _ ht => ht) fun _ _ ht => ht.1
      intro hfolds hunlinks _
      exact hforget o h hobj hfolds hunlinks
    | none =>
      simp only [wp_ite, wp_bind, wp_attempt]
      split
      · exact (wp_pure _ _).mpr hk
      generalize refsComputeHash digest io.digests _ = h
      have htrack := hk.track (some h) (fun _ => hlost) o.size o.bs
      split
      · refine ⟨htrack, ?_⟩
        have hobj' : (s.track o.blob o.size o.bs (some h)).objects path = some o := by
          rw [PblockExport.track_objects, hobj]
        refine wp_mono (refsFoldByHash_keeps htrack hpath hobj' rfl ?_) (fun _ ht => ht)
          fun _ _ ht => ht.1
        rintro ⟨hsurvivor, hbumps, hrepoints⟩ hunlinks _
        have hfiles := PblockExport.track_files s o.blob o.size o.bs (some h)
        rw [PblockExport.survivor_congr (fun c hc => PblockExport.blobs_track_of_ne hc _ _ _)
          hfiles] at hsurvivor
        apply hforget o h hobj ⟨hsurvivor, hbumps, hrepoints⟩
        obtain ⟨hcounts, hone, k, hle, hhere, hunlink⟩ := hunlinks
        obtain ⟨n, heq, hmax, -⟩ := s.track_eq o.blob o.size o.bs (some h)
        rw [heq, PblockExport.refsCount_setBlob_some] at hone
        rw [hfiles] at hhere
        simp only at hone
        exact ⟨hcounts, by omega, k, hle, hhere, hunlink⟩
      · exact (wp_pure _ _).mpr hk

end

/-! ## A fresh blob -/

/-- The id is no blob's: it has no row, no object names it, and it never was removed. -/
structure Vacant (st : PblockExport P B D) (b : B) : Prop where
  row : st.blobs b = none
  unnamed : ∀ p, st.holds p ≠ some b
  lost : st.lost b = false

/-- What the writes to one blob leave. -/
structure Beside (b : B) (s t : PblockExport P B D) : Prop where
  objects : t.objects = s.objects
  blobs : t.blobs = s.blobs
  saved : t.saved = s.saved
  lost : t.lost = s.lost
  files : ∀ c ≠ b, t.files c = s.files c

section

variable {fresh : B}

omit [DecidableEq P] [DecidableEq B] in
theorem Beside.refl (fresh : B) (s : PblockExport P B D) : Beside fresh s s :=
  ⟨rfl, rfl, rfl, rfl, fun _ _ => rfl⟩

omit [DecidableEq P] in
theorem Beside.putBlock (h : Beside fresh s t) (k : ℕ) (bytes : List UInt8) :
    Beside fresh s (t.putBlock fresh k bytes) := by
  refine ⟨h.objects, h.blobs, h.saved, h.lost, ?_⟩
  intro c hc
  rw [← h.files c hc]
  exact update_of_ne hc _ _

omit [DecidableEq P] in
theorem Beside.putPiece (h : Beside fresh s t) (piece : BlockPiece) :
    Beside fresh s (t.putPiece fresh piece) := by
  refine ⟨h.objects, h.blobs, h.saved, h.lost, ?_⟩
  intro c hc
  rw [← h.files c hc]
  exact update_of_ne hc _ _

omit [DecidableEq P] [DecidableEq B] in
theorem Beside.vacant (h : Beside fresh s t) (hfresh : Vacant s fresh) : Vacant t fresh := by
  refine ⟨?_, ?_, ?_⟩
  · rw [h.blobs]
    exact hfresh.row
  · rw [PblockExport.holds_congr h.objects]
    exact hfresh.unnamed
  · rw [h.lost]
    exact hfresh.lost

omit [DecidableEq P] in
theorem Keeps.beside (hk : Keeps own st s) (hfree : ∀ p, s.holds p ≠ some fresh)
    (h : Beside fresh s t) : Keeps own st t := by
  refine hk.trans ⟨⟨h.saved.trans hk.safe.idle, ?_⟩, ?_, ?_⟩
  · rw [PblockExport.holds_congr h.objects]
    exact hk.safe.covered.congr h.blobs h.lost
  · intro q _
    rw [h.objects]
  · intro q _ b hb
    exact h.files b fun heq => hfree q (heq ▸ hb)

omit [DecidableEq P] in
theorem refsRemove_keeps {unlinks : ℕ → Bool} (hk : Keeps own st s)
    (hfree : ∀ p, s.holds p ≠ some o.blob) (hstored : s.storedHash o.blob = none) :
    wp (Keeps own st) (refsRemove unlinks o) (fun _ => Keeps own st) s := by
  have hkeep : ∀ t, Covered s.holds [] t ∧ Left s.holds o.blob s t → Keeps own st t := by
    rintro t ⟨hcov, hleft⟩
    exact hk.left hcov hleft
  refine wp_mono (refsRemove_spec hk.safe.covered (.refl s) hfree not_mem_nil ?_) hkeep
    fun _ t ht => hkeep t ht
  intro _ _ _ _
  exact hstored

omit [DecidableEq P] [DecidableEq B] in
theorem Vacant.storedHash (h : Vacant s fresh) : s.storedHash fresh = none := by
  rw [PblockExport.storedHash, h.row]
  rfl

omit [DecidableEq P] in
theorem refsCopyBlocks_beside (io : BreakIo) (src : B) (ks : List ℕ) (h : Beside fresh s t) :
    wp (Beside fresh s) (refsCopyBlocks io src fresh ks) (fun _ => Beside fresh s) t := by
  induction ks generalizing t with
  | nil => exact (wp_pure _ _).mpr h
  | cons k ks ih =>
    rw [refsCopyBlocks, wp_bind, wp_gets]
    cases t.files src k with
    | none => exact ih h
    | some bytes =>
      have hmade := h.putBlock k []
      have hput := hmade.putBlock k (bytes.take (io.copied k))
      simp only [wp_bind, wp_gets, wp_attempt, wp_ite, wp_step, Bool.not_true, Bool.not_false,
        Bool.false_eq_true, if_false, if_true]
      split
      · refine ⟨hmade, hput, ?_⟩
        split
        · exact (wp_pure _ _).mpr hput
        · exact ih hput
      · exact (wp_pure _ _).mpr h

omit [DecidableEq P] in
theorem refsPopulatePrivate_keeps (io : BreakIo) (trunc : Bool) (hk : Keeps own st s)
    (hfresh : Vacant s fresh) :
    wp (Keeps own st) (refsPopulatePrivate io o fresh trunc)
      (fun done t => Keeps own st t ∧ (done = true → Beside fresh s t)) s := by
  have hkeep : ∀ t, Beside fresh s t → Keeps own st t := fun t ht =>
    hk.beside hfresh.unnamed ht
  rw [refsPopulatePrivate, wp_ite]
  split
  · have hmade := (Beside.refl fresh s).putBlock 0 []
    rw [wp_bind, wp_gets, wp_attempt]
    split
    · exact ⟨hkeep _ hmade, hkeep _ hmade, fun _ => hmade⟩
    · exact ⟨hk, (fun h => by cases h)⟩
  · rw [wp_bind]
    refine wp_mono (refsCopyBlocks_beside io o.blob _ (.refl fresh s)) hkeep ?_
    intro done t ht
    have hvacant := ht.vacant hfresh
    rw [wp_ite]
    split
    · exact (wp_pure _ _).mpr ⟨hkeep t ht, fun _ => ht⟩
    · rw [wp_bind]
      refine wp_mono (refsRemove_keeps (hkeep t ht) hvacant.unnamed hvacant.storedHash)
        (fun _ hu => hu) ?_
      intro _ u hu
      exact (wp_pure _ _).mpr ⟨hu, (fun h => by cases h)⟩

/-- A write to a shared blob gets one of its own. -/
theorem pblockRefsBreakShare_keeps (io : BreakIo) (trunc : Bool) (hk : Keeps own st s)
    (hpath : path ∈ own) (hrow : s.objects path = some o) (hfresh : Vacant s fresh) :
    wp (Keeps own st) (pblockRefsBreakShare io path o fresh trunc) (fun _ => Keeps own st) s := by
  have hholds : s.holds path = some o.blob := by
    rw [PblockExport.holds, hrow]
    rfl
  have hne : o.blob ≠ fresh := fun heq => hfresh.unnamed path (heq ▸ hholds)
  rw [pblockRefsBreakShare, wp_bind, wp_gets]
  simp only [wp_ite]
  split
  · exact (wp_pure _ _).mpr hk
  split
  · exact (wp_pure _ _).mpr hk
  next hmany =>
  split
  · exact (wp_pure _ _).mpr hk
  rw [wp_bind]
  refine wp_mono (refsPopulatePrivate_keeps io trunc hk hfresh) (fun _ ht => ht) ?_
  rintro populated t ⟨ht, hbeside⟩
  rw [wp_ite]
  split
  · exact (wp_pure _ _).mpr ht
  next hpop =>
  have hb := hbeside (by simpa using hpop)
  have hvacant := hb.vacant hfresh
  have hrow' : t.objects path = some o := by
    rw [hb.objects, hrow]
  have hdue := ht.safe.covered.vacant hvacant.unnamed not_mem_nil hvacant.lost
  obtain ⟨hrep, hold⟩ := ht.repoint hpath hrow' hdue
  simp only [wp_bind, wp_attempt, Bool.not_true, Bool.not_false, Bool.false_eq_true, if_false,
    if_true]
  split
  · refine ⟨hrep, ?_⟩
    have hcount : ∀ u : PblockExport P B D, u.blobs o.blob = s.blobs o.blob →
        io.old.Forgets u o := by
      intro u hu
      apply ReleaseIo.Forgets.of_shared
      rw [PblockExport.refsCount, hu]
      exact Nat.lt_of_not_le hmany
    have hrows : (t.repoint path fresh).blobs o.blob = s.blobs o.blob := congrFun hb.blobs o.blob
    have hfinish : ∀ u, Keeps own st u → Covered u.holds [o.blob] u →
        u.blobs o.blob = s.blobs o.blob →
        wp (Keeps own st) (pblockRefsRelease io.old o)
          (fun _ => wp (Keeps own st) (pure (some { o with blob := fresh }))
            fun _ => Keeps own st) u := by
      intro u hu hcov hblobs
      refine wp_mono (pblockRefsRelease_keeps hu hcov (hcount u hblobs)) (fun _ hv => hv) ?_
      intro _ v hv
      exact (wp_pure _ _).mpr hv
    split
    · have htrack := hrep.track (b := fresh) none nofun o.size o.bs
      refine ⟨htrack, hfinish _ htrack ?_ ?_⟩
      · rw [PblockExport.holds_congr (PblockExport.track_objects _ _ _ _ _)]
        exact hold.track o.size o.bs nofun
      · rw [PblockExport.blobs_track_of_ne hne, hrows]
    · exact hfinish _ hrep hold hrows
  · refine wp_mono (refsRemove_keeps ht hvacant.unnamed hvacant.storedHash) (fun _ hu => hu) ?_
    intro _ u hu
    exact (wp_pure _ _).mpr hu

theorem pblockPrepareExistingFd_keeps (io : BreakIo) (trunc : Bool) (hk : Keeps own st s)
    (hpath : path ∈ own) (hfresh : Vacant s fresh) :
    wp (Keeps own st) (pblockPrepareExistingFd io path fresh trunc) (fun _ => Keeps own st) s := by
  rw [pblockPrepareExistingFd, wp_bind, wp_gets]
  cases hrow : s.objects path with
  | none => exact (wp_pure _ _).mpr hk
  | some o =>
    simp only [wp_ite, wp_bind]
    split
    · exact (wp_pure _ _).mpr hk
    · refine wp_mono (pblockRefsBreakShare_keeps io trunc hk hpath hrow hfresh) (fun _ ht => ht) ?_
      intro broken t ht
      cases broken with
      | none => exact (wp_pure _ _).mpr ht
      | some o' =>
        rw [wp_bind, wp_gets]
        exact (wp_pure _ _).mpr ht

theorem pblockOpenAbsent_keeps (io : CreateIo) (bs : ℕ+) (hk : Keeps own st s)
    (hpath : path ∈ own) (hfresh : Vacant s fresh) :
    wp (Keeps own st) (pblockOpenAbsent io path fresh bs) (fun _ => Keeps own st) s := by
  have hb := (Beside.refl fresh s).putBlock 0 []
  have hvacant := hb.vacant hfresh
  have hmade := hk.beside hfresh.unnamed hb
  have hput : Keeps own st ((s.putBlock fresh 0 []).setObject path (some ⟨fresh, 0, bs⟩)) := by
    apply hmade.setObject hpath
    exact (hmade.safe.covered.vacant hvacant.unnamed not_mem_nil hvacant.lost).take path
  simp only [pblockOpenAbsent, wp_bind, wp_gets, wp_attempt, wp_ite, Bool.not_true, Bool.not_false,
    Bool.false_eq_true, if_false, if_true]
  split
  · exact (wp_pure _ _).mpr hk
  split
  · refine ⟨hmade, ?_⟩
    split
    · refine ⟨hput, ?_⟩
      have htrack := hput.track (b := fresh) none (by simp) 0 bs
      split
      · exact ⟨htrack, (wp_pure _ _).mpr htrack⟩
      · exact (wp_pure _ _).mpr hput
    · refine wp_mono (refsRemove_keeps hmade hvacant.unnamed hvacant.storedHash)
        (fun _ hu => hu) ?_
      intro _ u hu
      exact (wp_pure _ _).mpr hu
  · exact (wp_pure _ _).mpr hk

omit [DecidableEq P] in
theorem sdPblockStagedWrite_keeps (bs : ℕ+) (data : List UInt8) (off : ℕ) (hk : Keeps own st s)
    (hfresh : Vacant s fresh) :
    wp (Keeps own st) (sdPblockStagedWrite fresh bs data off) (fun _ => Keeps own st) s := by
  have hkeep : ∀ t, Beside fresh s t → Keeps own st t := fun t ht =>
    hk.beside hfresh.unnamed ht
  have hloop : wp (Beside fresh s) (sdPblockStagedWrite fresh bs data off)
      (fun _ => Beside fresh s) s := by
    apply wp_forEach (Beside fresh s)
    · intro piece _ t ht
      rw [wp_step]
      exact ⟨ht.putPiece piece, ht.putPiece piece⟩
    · exact .refl fresh s
  exact wp_mono hloop hkeep fun _ t ht => hkeep t ht

end

/-- A copy counts one path more on the blob. -/
theorem pblockCopyCow_keeps (io : CopyIo) (src dst : P) (hk : Keeps own st s) (hdst : dst ∈ own)
    (hforget : ∀ o old, s.objects src = some o → s.objects dst = some old →
      io.old.Forgets (s.bump o.blob o.size o.bs) old) :
    wp (Keeps own st) (pblockCopyCow io src dst) (fun _ => Keeps own st) s := by
  simp only [pblockCopyCow, wp_bind, wp_gets]
  cases hrow : s.objects src with
  | none => exact (wp_pure _ _).mpr hk
  | some o =>
    have hholds : s.holds src = some o.blob := by
      rw [PblockExport.holds, hrow]
      rfl
    obtain ⟨hbump, hdue⟩ := hk.bump (hk.safe.lost_of_holds hholds) o.size o.bs
    have hput : Keeps own st ((s.bump o.blob o.size o.bs).setObject dst (some o)) :=
      hbump.setObject hdst (hdue.take dst)
    have hcount := PblockExport.refsCount_bump hk.safe o.blob o.size o.bs
    have hpos := s.one_le_refsCount o.blob
    simp only [wp_bind, wp_attempt, wp_ite, Bool.not_true, Bool.not_false, Bool.false_eq_true,
      if_false, if_true]
    split
    · exact (wp_pure _ _).mpr hk
    split
    · refine ⟨hbump, ?_⟩
      split
      · refine ⟨hput, ?_⟩
        cases hdrow : s.objects dst with
        | none => exact (wp_pure _ _).mpr hput
        | some old =>
          simp only [wp_ite]
          split
          · have hold : (s.bump o.blob o.size o.bs).holds dst = some old.blob := by
              rw [PblockExport.holds, PblockExport.bump_objects, hdrow]
              rfl
            have hcov := hdue.swap hold
            rw [wp_bind]
            refine wp_mono (pblockRefsRelease_keeps hput ?_ (hforget o old hrow hdrow))
              (fun _ ht => ht) fun _ t ht => (wp_pure _ _).mpr ht
            rw [PblockExport.holds_setObject]
            exact hcov.congr rfl rfl
          · exact (wp_pure _ _).mpr hput
      · have hshared : io.undo.Forgets (s.bump o.blob o.size o.bs) o := .of_shared (by omega)
        refine wp_mono (pblockRefsRelease_keeps hbump hdue hshared) (fun _ ht => ht) ?_
        intro _ t ht
        exact (wp_pure _ _).mpr ht
    · exact (wp_pure _ _).mpr hk

/-! ## Removals -/

section

variable {n : ℕ}

/-- The steps of a release before it unlinks or counts down. -/
def ReleaseIo.quiet (io : ReleaseIo) (st : PblockExport P B D) (o : PblockMeta B) : ℕ :=
  if io.counts = true ∧ st.refsCount o.blob ≤ 1 ∧ io.drops = true then 1 else 0

/-- A removal stopped after `n` steps unlinks and counts down nothing, or was stopped
before it did, or after the row was removed. -/
def DropIo.Clean (io : DropIo) (st : PblockExport P B D) (o : PblockMeta B) (n : ℕ) : Prop :=
  io.release.Forgets st o ∧
    ((¬io.release.Unlinks st o ∧ ¬io.release.Lowers st o) ∨ n ≤ io.release.quiet st o ∨
      ((pblockRefsRelease io.release o st).cuts.length < n ∧ io.remove.row = true))

omit [DecidableEq P] in
theorem pblockRefsRelease_quiet {io : ReleaseIo} (h : n ≤ io.quiet st o) :
    n ≤ (pblockRefsRelease io o st).cuts.length ∧
      ((pblockRefsRelease io o).stopAt n st = st ∨
        st.refsCount o.blob ≤ 1 ∧
          (pblockRefsRelease io o).stopAt n st = st.setBlob o.blob none) := by
  rw [ReleaseIo.quiet] at h
  split at h
  · next hcond =>
    obtain ⟨hcounts, hone, hdrops⟩ := hcond
    have hcuts : (pblockRefsRelease io o st).cuts =
        st.setBlob o.blob none ::
          (refsRemove io.unlinks o (st.setBlob o.blob none)).cuts := by
      have hrel : pblockRefsRelease io o st =
          (attempt io.drops (fun s : PblockExport P B D => s.setBlob o.blob none) >>=
            fun _ => refsRemove io.unlinks o) st := by
        rw [pblockRefsRelease, gets_bind, hcounts, if_neg (by simp), if_pos hone]
      rw [hrel, hdrops]
      rfl
    refine ⟨by rw [hcuts, length_cons]; omega, ?_⟩
    obtain rfl | hpos := Nat.eq_zero_or_pos n
    · exact .inl rfl
    · have hn : n = 1 := by omega
      subst hn
      refine .inr ⟨hone, ?_⟩
      rw [stopAt, hcuts]
      rfl
  · have hn : n = 0 := by omega
    subst hn
    exact ⟨Nat.zero_le _, .inl rfl⟩

omit [DecidableEq P] in
theorem Keeps.quiet {io : ReleaseIo} (hsafe : Safe st) (h : n ≤ io.quiet st o) :
    Keeps own st ((pblockRefsRelease io o).stopAt n st) := by
  obtain ⟨-, heq | ⟨hone, heq⟩⟩ := pblockRefsRelease_quiet h
  · rw [heq]
    exact .refl hsafe
  · rw [heq]
    exact .of_blobs ⟨hsafe.idle, hsafe.covered.dropRow hone⟩ rfl rfl

theorem Keeps.removed {t : PblockExport P B D} (hsafe : Safe st) (hpath : path ∈ own)
    (hcov : Covered (update st.holds path none) [] t)
    (hleft : Left (update st.holds path none) o.blob st t) :
    Keeps own st (t.setObject path none) := by
  have hholds : (t.setObject path none).holds = update st.holds path none := by
    rw [PblockExport.holds_setObject, PblockExport.holds_congr hleft.objects]
    rfl
  refine ⟨⟨hleft.saved.trans hsafe.idle, ?_⟩, ?_, ?_⟩
  · rw [hholds]
    exact hcov.congr rfl rfl
  · intro q hq
    have hne : q ≠ path := fun heq => hq (heq ▸ hpath)
    rw [← hleft.objects]
    exact update_of_ne hne _ _
  · intro q hq b hb
    have hne : q ≠ path := fun heq => hq (heq ▸ hpath)
    apply hleft.files q b
    rw [update_of_ne hne]
    exact hb

variable {io : DropIo}

theorem sdPblockDropDst_idle (hsafe : Safe st) (hpath : path ∈ own)
    (hunlinks : ¬io.release.Unlinks st o) (hlowers : ¬io.release.Lowers st o) :
    wp (Keeps own st) (sdPblockDropDst io path o) (fun _ => Keeps own st) st := by
  rw [sdPblockDropDst, wp_bind]
  refine wp_mono (pblockRefsRelease_idle (.refl hsafe) hunlinks hlowers) (fun _ ht => ht) ?_
  rintro _ t ⟨ht, hobj⟩
  have hgone : Keeps own st (t.setObject path none) := by
    apply ht.setObject hpath
    exact ht.safe.covered.hide path
  rw [pblockCatalogRemove, wp_bind, wp_attempt]
  split
  · exact ⟨hgone, (wp_pure _ _).mpr hgone⟩
  · exact (wp_pure _ _).mpr ht

theorem sdPblockDropDst_last (hsafe : Safe st) (hpath : path ∈ own)
    (hrow : st.objects path = some o) (hforget : io.release.Forgets st o)
    (hremoves : io.remove.row = true) :
    (sdPblockDropDst io path o st).cuts.length =
        (pblockRefsRelease io.release o st).cuts.length + 1 ∧
      Keeps own st ((sdPblockDropDst io path o st).last st) := by
  have hholds : st.holds path = some o.blob := by
    rw [PblockExport.holds, hrow]
    rfl
  have hspec := pblockRefsRelease_spec (hsafe.covered.letGo hholds) hforget
  constructor
  · rw [sdPblockDropDst, cuts_bind, length_append]
    congr 1
    simp only [pblockCatalogRemove, hremoves]
    rfl
  · have hlast : wp (fun _ => True) (sdPblockDropDst io path o) (fun _ => Keeps own st) st := by
      rw [sdPblockDropDst, wp_bind]
      refine wp_mono hspec (fun _ _ => trivial) ?_
      rintro _ t ⟨hcov, hleft⟩
      rw [pblockCatalogRemove, hremoves, wp_bind, wp_attempt]
      exact ⟨trivial, (wp_pure _ _).mpr (.removed hsafe hpath hcov hleft)⟩
    exact hlast.2

theorem sdPblockDropDst_stopAt (hsafe : Safe st) (hpath : path ∈ own)
    (hrow : st.objects path = some o) (hclean : io.Clean st o n) :
    Keeps own st ((sdPblockDropDst io path o).stopAt n st) := by
  obtain ⟨hforget, ⟨hunlinks, hlowers⟩ | hquiet | ⟨hlt, hremoves⟩⟩ := hclean
  · exact wp_stopAt (sdPblockDropDst_idle hsafe hpath hunlinks hlowers) (.refl hsafe) n
  · rw [sdPblockDropDst, stopAt_bind, if_pos (pblockRefsRelease_quiet hquiet).1]
    exact .quiet hsafe hquiet
  · obtain ⟨hlength, hlast⟩ := sdPblockDropDst_last hsafe hpath hrow hforget hremoves
    rw [stopAt_of_le (by omega)]
    exact hlast

theorem sdPblockUnlink_stopAt (hsafe : Safe st) (hpath : path ∈ own)
    (hclean : ∀ o, st.objects path = some o → io.looksUp = true → io.gates = true →
      io.Clean st o n) :
    Keeps own st ((sdPblockUnlink io path).stopAt n st) := by
  rw [sdPblockUnlink, stopAt_gets_bind]
  cases hrow : st.objects path with
  | none =>
    simp only [stopAt_pure]
    exact .refl hsafe
  | some o =>
    simp only
    split
    · rw [stopAt_pure]
      exact .refl hsafe
    · next hgates =>
      obtain ⟨hlooks, hgates'⟩ : io.looksUp = true ∧ io.gates = true := by simpa using hgates
      exact sdPblockDropDst_stopAt hsafe hpath hrow (hclean o hrow hlooks hgates')

theorem Keeps.moved {t : PblockExport P B D} {src dst : P} (hk : Keeps own st t)
    (hsrc : src ∈ own) (hdst : dst ∈ own) {row : PblockMeta B} (hrow : t.objects src = some row) :
    Keeps own st (t.moveObject src dst) := by
  have hholds : t.holds src = some row.blob := by
    rw [PblockExport.holds, hrow]
    rfl
  have hgo := hk.safe.covered.letGo hholds
  have hgone : Keeps own st (t.setObject src none) := hk.setObject hsrc hgo.forget
  rw [PblockExport.moveObject, hrow]
  apply hgone.setObject hdst
  rw [PblockExport.holds_setObject]
  exact (hgo.take dst).congr rfl rfl

/-- A rename, stopped after any step -/
theorem sdPblockRename_stopAt {moves noreplace : Bool} {src dst : P}
    (hsafe : Safe st) (hsrc : src ∈ own) (hdst : dst ∈ own)
    (hclean : ∀ o, st.objects dst = some o → (st.objects src).isSome = true →
      io.looksUp = true → io.gates = true → noreplace = false → io.Clean st o n) :
    Keeps own st ((sdPblockRename io moves noreplace src dst).stopAt n st) := by
  -- what comes after the destination is cleared
  have hrest : ∀ cleared : Bool, ∀ t, Keeps own st t →
      wp (Keeps own st)
        (if !cleared then pure false
          else do
            let still ← gets fun s : PblockExport P B D => (s.objects src).isSome
            attempt (moves && still) fun s => s.moveObject src dst)
        (fun _ => Keeps own st) t := by
    intro cleared t ht
    rw [wp_ite]
    split
    · exact (wp_pure _ _).mpr ht
    · rw [wp_bind, wp_gets, wp_attempt]
      split
      · next hgo =>
        obtain ⟨row, hrow⟩ := Option.isSome_iff_exists.mp (Bool.and_eq_true_iff.mp hgo).2
        have hmoved := ht.moved hsrc hdst hrow
        exact ⟨hmoved, hmoved⟩
      · exact ht
  rw [sdPblockRename, stopAt_gets_bind, stopAt_gets_bind]
  split
  · rw [stopAt_pure]
    exact .refl hsafe
  next hgates =>
  obtain ⟨⟨hsome, hlooks⟩, hgates'⟩ :
      ((st.objects src).isSome = true ∧ io.looksUp = true) ∧ io.gates = true := by
    simpa [Option.isSome_iff_ne_none, and_assoc] using hgates
  cases hrow : st.objects dst with
  | none =>
    have hall := wp_stopAt (hrest true st (.refl hsafe)) (.refl hsafe) n
    exact hall
  | some old =>
    cases hno : noreplace with
    | true => exact wp_stopAt (hrest false st (.refl hsafe)) (.refl hsafe) n
    | false =>
      have hcond := hclean old hrow hsome hlooks hgates' hno
      simp only [Bool.false_eq_true, if_false]
      rw [stopAt_bind]
      split
      · exact sdPblockDropDst_stopAt hsafe hdst hrow hcond
      · next hbeyond =>
        have hlast : Keeps own st ((sdPblockDropDst io dst old st).last st) := by
          have hstop := sdPblockDropDst_stopAt hsafe hdst hrow hcond
          rwa [stopAt_of_le (by omega)] at hstop
        exact wp_stopAt (hrest _ _ hlast) hlast _

end

end BrixCache
