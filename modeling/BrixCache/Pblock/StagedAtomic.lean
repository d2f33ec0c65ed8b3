import BrixCache.Pblock.StagedCommit

/-!
# What a staged commit shows

After a staged commit that stopped somewhere, and the recovery, the destination should
read the old bytes or the new ones, and no row should name a blob that lost block files.
That fails between the first unlinked block file and the `COMMIT`, and where the publish
folds the new blob onto one that has other bytes.
-/

namespace BrixCache

open Proc Function

variable {P B D : Type} {st s u t : PblockExport P B D} {path : P} {o o' old : PblockMeta B} {n : ℕ}

/-- `path` reads its old bytes or those of `o`, and nothing that is named is lost. -/
def AtomicAt (st t : PblockExport P B D) (path : P) (o : PblockMeta B) : Prop :=
  (t.readPath path = st.readPath path ∨ t.readPath path = st.readObject o) ∧
    ∀ p b, t.holds p = some b → t.lost b = false

/-- From `u` on, `path` names `o'`, and only block files of a blob it no longer names are
gone. -/
structure Shows [DecidableEq P] (u t : PblockExport P B D) (path : P) (o o' : PblockMeta B) :
    Prop where
  saved : t.saved = u.saved
  objects : t.objects = update u.objects path (some o')
  files : ∀ b, b ≠ o.blob ∨ o' = o → t.files b = u.files b
  lost : ∀ b, b ≠ o.blob ∨ o' = o → t.lost b = u.lost b

variable [DecidableEq B] [DecidableEq P] [DecidableEq D]

omit [DecidableEq P] [DecidableEq D] in
theorem AtomicAt.refl (hsafe : Safe st) : AtomicAt st st path o :=
  ⟨.inl rfl, hsafe.covered.held⟩

omit [DecidableEq B] [DecidableEq D] in
/-- All or nothing at a path, when the rest is known -/
theorem Shows.atomicAt_iff (h : Shows u t path o o') (hne : o' = o ∨ o'.blob ≠ o.blob)
    (hheld : ∀ q ≠ path, ∀ b, u.holds q = some b → u.lost b = false ∧ b ≠ o.blob) :
    AtomicAt st t path o ↔
      (u.readObject o' = st.readPath path ∨ u.readObject o' = st.readObject o) ∧
        u.lost o'.blob = false := by
  have hout : o'.blob ≠ o.blob ∨ o' = o := hne.symm
  have hread : t.readPath path = u.readObject o' := by
    rw [PblockExport.readPath, h.objects, update_self, Option.bind_some,
      PblockExport.readObject, PblockExport.readObject, h.files o'.blob hout]
  have hholds : ∀ q ≠ path, t.holds q = u.holds q := by
    intro q hq
    rw [PblockExport.holds, h.objects, update_of_ne hq]
    rfl
  have hself : t.holds path = some o'.blob := by
    rw [PblockExport.holds, h.objects, update_self]
    rfl
  rw [AtomicAt, hread]
  apply and_congr_right
  intro _
  constructor
  · intro hall
    rw [← h.lost o'.blob hout]
    exact hall path o'.blob hself
  · intro hlost p b hp
    by_cases hpath : p = path
    · subst hpath
      rw [hself] at hp
      cases hp
      rw [h.lost _ hout, hlost]
    · rw [hholds p hpath] at hp
      obtain ⟨hb, hblob⟩ := hheld p hpath b hp
      rw [h.lost b (.inl hblob), hb]

/-! ## What the drop leaves to a fold -/

/-- The drop of the destination gives back the last reference to a blob. -/
def DropIo.frees (io : DropIo) (st : PblockExport P B D) (path : P) (c : B) : Bool :=
  io.release.counts && st.refsCount c ≤ 1 && st.holds path = some c

/-- The block files of a blob behind the drop of the destination -/
def DropIo.leaves (io : DropIo) (st : PblockExport P B D) (path : P) (c : B) : Blocks :=
  match st.objects path with
  | none => st.files c
  | some old =>
    if io.frees st path c then fun k =>
      if k ≤ pblockLastBlock old.size old.bs ∧ io.release.unlinks k = true then none
      else st.files c k
    else st.files c

omit [DecidableEq P] [DecidableEq D] in
theorem forEach_unlink_files (unlinks : ℕ → Bool) (ks : List ℕ) :
    wp (fun _ => True) (forEach (refsUnlinkBlock unlinks o) ks) (fun _ t => t.blobs = s.blobs ∧
      t.files = update s.files o.blob fun k =>
        if k ∈ ks ∧ unlinks k = true then none else s.files o.blob k) s := by
  induction ks generalizing s with
  | nil => exact (wp_pure _ _).mpr ⟨rfl, by simp⟩
  | cons k ks ih =>
    rw [forEach, wp_bind]
    simp only [refsUnlinkBlock, wp_bind, wp_gets, wp_attempt, wp_pure]
    split
    · next hgo =>
      refine ⟨trivial, wp_mono ih (fun _ h => h) ?_⟩
      rintro _ t ⟨hblobs, hfiles⟩
      refine ⟨hblobs, hfiles.trans ?_⟩
      rw [PblockExport.dropBlock, update_idem]
      congr 1
      funext j
      by_cases hj : j = k
      · simp [hj, (Bool.and_eq_true_iff.mp hgo).2]
      · simp [hj]
    · next hgo =>
      refine wp_mono ih (fun _ h => h) ?_
      rintro _ t ⟨hblobs, hfiles⟩
      refine ⟨hblobs, hfiles.trans (congrArg _ (funext fun j => ?_))⟩
      by_cases hj : j = k
      · subst hj
        cases hunlink : unlinks j with
        | false => simp
        | true =>
          have hnone : s.files o.blob j = none := by simpa [hunlink] using hgo
          simp [hnone]
      · simp [hj]

/-- What is nominated behind the drop of the destination, and what can be read of it. -/
def DropIo.Left (io : DropIo) (st : PblockExport P B D) (path : P) (t : PblockExport P B D) :
    Prop :=
  (∀ (o : PblockMeta B) h c, t.nominates o h c =
      (st.nominates o h c && !(io.frees st path c && io.release.drops))) ∧
    ∀ c, t.files c = io.leaves st path c

omit [DecidableEq P] in
/-- What a stopped release leaves -/
theorem DropIo.left_refsRelease {io : DropIo} (hobj : st.objects path = some old)
    (hblobs : s.blobs = st.blobs) (hfiles : s.files = st.files) :
    wp (fun _ => True) (pblockRefsRelease io.release old) (fun _ => io.Left st path) s := by
  have hcount : s.refsCount old.blob = st.refsCount old.blob := by
    rw [PblockExport.refsCount, hblobs]
    rfl
  have hholds : st.holds path = some old.blob := by
    rw [PblockExport.holds, hobj]
    rfl
  have hsame : ∀ (t : PblockExport P B D) (o : PblockMeta B) h c, t.blobs c = st.blobs c →
      t.nominates o h c = st.nominates o h c := by
    intro t o h c hblob
    rw [PblockExport.nominates, hblob]
    rfl
  -- nothing is given back
  have hkept : ∀ t : PblockExport P B D, (∀ c, io.frees st path c = false) → t.files = st.files →
      (∀ (o : PblockMeta B) h c, t.nominates o h c = st.nominates o h c) → io.Left st path t := by
    intro t hno hf hnom
    refine ⟨fun o h c => by simp [hnom, hno c], fun c => ?_⟩
    rw [hf, DropIo.leaves, hobj]
    simp [hno c]
  rw [pblockRefsRelease, wp_bind, wp_gets, hcount, wp_ite, wp_ite]
  split
  · next hcounts =>
    refine (wp_pure _ _).mpr (hkept s (fun c => ?_) hfiles fun o h c => hsame s o h c (by rw [hblobs]))
    simp [frees, show io.release.counts = false by simpa using hcounts]
  next hcounts =>
  have hcounts : io.release.counts = true := by simpa using hcounts
  split
  · next hone =>
    have hfrees : ∀ c, io.frees st path c = decide (c = old.blob) := by
      intro c
      by_cases hc : c = old.blob
      · simp [frees, hcounts, hholds, hc, hone]
      · simp [frees, hholds, hc, Ne.symm hc]
    have hloop : ∀ t : PblockExport P B D, t.files = st.files →
        (∀ (o : PblockMeta B) h c, t.nominates o h c =
          (st.nominates o h c && !(io.frees st path c && io.release.drops))) →
        wp (fun _ => True) (refsRemove io.release.unlinks old) (fun _ => io.Left st path) t := by
      intro t hf hnom
      refine wp_mono (forEach_unlink_files _ _) (fun _ h => h) ?_
      rintro _ u ⟨hb, hu⟩
      refine ⟨fun o h c => ?_, fun c => ?_⟩
      · rw [← hnom, PblockExport.nominates, hb]
        rfl
      · rw [hu, hf, DropIo.leaves, hobj]
        by_cases hc : c = old.blob
        · subst hc
          simp only [List.mem_range, Nat.lt_succ_iff, update_self, hfrees, decide_true, if_true]
        · simp [hfrees, hc]
    rw [wp_bind, wp_attempt]
    split
    · next hdrops =>
      refine ⟨trivial, hloop _ hfiles fun o h c => ?_⟩
      by_cases hc : c = old.blob
      · simp [PblockExport.nominates, PblockExport.setBlob, hc, hfrees, hdrops]
      · rw [hsame _ o h c (by rw [← hblobs]; exact update_of_ne hc _ _)]
        simp [hfrees, hc]
    · next hdrops =>
      refine hloop s hfiles fun o h c => ?_
      rw [hsame s o h c (by rw [hblobs])]
      simp [hdrops]
  · next hshared =>
    have hno : ∀ c, io.frees st path c = false := by
      intro c
      by_cases hc : c = old.blob
      · simp [frees, hc, hshared]
      · simp [frees, hholds, Ne.symm hc]
    rw [wp_bind, wp_attempt]
    split
    · refine ⟨trivial, (wp_pure _ _).mpr (hkept _ hno hfiles fun o h c => ?_)⟩
      by_cases hc : c = old.blob
      · -- the row of a shared blob keeps a reference
        subst hc
        cases hrow : st.blobs old.blob with
        | none => simp [PblockExport.refsCount, hrow] at hshared
        | some r =>
          have htwo : 2 ≤ r.refcount := by
            rw [PblockExport.refsCount, hrow] at hshared
            dsimp only at hshared
            omega
          have hrow' : s.blobs old.blob = some r := by rw [hblobs, hrow]
          have hone : 1 ≤ r.refcount - 1 ↔ 1 ≤ r.refcount := by omega
          simp [PblockExport.nominates, PblockExport.lower, PblockExport.setBlob, hrow, hrow', hone]
      · exact hsame _ o h c (by rw [← hblobs]; exact update_of_ne hc _ _)
    · exact (wp_pure _ _).mpr (hkept s hno hfiles fun o h c => hsame s o h c (by rw [hblobs]))

omit [DecidableEq P] in
theorem DropIo.left_of_empty {io : DropIo} (hobj : st.objects path = none)
    (hblobs : s.blobs = st.blobs) (hfiles : s.files = st.files) : io.Left st path s := by
  have hno : ∀ c, io.frees st path c = false := by
    intro c
    simp [frees, PblockExport.holds, hobj]
  refine ⟨fun o h c => ?_, fun c => ?_⟩
  · rw [hno, PblockExport.nominates, hblobs]
    simp [PblockExport.nominates]
  · rw [hfiles, DropIo.leaves, hobj]

theorem pblockStagedTx_left (st : PblockExport P B D) (path : P) (o : PblockMeta B)
    (io : CommitIo B) :
    wp (fun _ => True) (pblockStagedTx io path o)
      (fun ok t => ok = true → io.drop.Left st path t) st.beginTx := by
  have hprepare : wp (fun _ => True) (pblockStagedPrepareDestination io.drop path)
      (fun ok t => ok = true → io.drop.Left st path t) st.beginTx := by
    rw [pblockStagedPrepareDestination, wp_bind, wp_gets, wp_ite]
    have hrow : st.beginTx.objects path = st.objects path := rfl
    rw [hrow]
    split
    · exact (wp_pure _ _).mpr fun h => by cases h
    cases hobj : st.objects path with
    | none => exact (wp_pure _ _).mpr fun _ => DropIo.left_of_empty hobj rfl rfl
    | some old =>
      simp only
      rw [sdPblockDropDst, wp_bind]
      refine wp_mono (DropIo.left_refsRelease hobj rfl rfl) (fun _ _ => trivial) ?_
      rintro _ t ht
      rw [pblockCatalogRemove, wp_bind, wp_attempt]
      split
      · exact ⟨trivial, (wp_pure _ _).mpr fun _ => ht⟩
      · exact (wp_pure _ _).mpr fun _ => ht
  rw [pblockStagedTx, wp_bind]
  refine wp_mono hprepare (fun _ _ => trivial) ?_
  intro prepared t ht
  rw [wp_attempt]
  split
  · next hgo => exact ⟨trivial, fun _ => ht (Bool.and_eq_true_iff.mp hgo).1⟩
  · exact fun h => by cases h

theorem CommitIo.ends_left {io : CommitIo B} (hcommits : io.Commits st path) :
    io.drop.Left st path (io.ends st path o) := by
  obtain ⟨hgo, -⟩ | ⟨-, hfails, -⟩ := io.ends_spec st path o
  · have hleft := (pblockStagedTx_left st path o io).2 (Bool.and_eq_true_iff.mp hgo).1
    rw [ends]
    simp only [hgo, if_true]
    exact hleft
  · exact absurd hcommits hfails

/-- The blob that the publish folds onto, as the export stands in front of the commit -/
def CommitIo.picks (io : CommitIo B) (st : PblockExport P B D) (path : P) (o : PblockMeta B)
    (h : ContentHash D) : Option B :=
  io.fold.rows.find? fun c =>
    st.nominates o h c && !(io.drop.frees st path c && io.drop.release.drops) &&
      (h.trusted || (io.fold.compares c &&
        pblockReadBlocks (st.files o.blob) o.bs o.size 0 =
          pblockReadBlocks (io.drop.leaves st path c) o.bs o.size 0))

theorem CommitIo.survivor_ends {io : CommitIo B} (hcommits : io.Commits st path)
    (hown : (io.ends st path o).files o.blob = st.files o.blob) (h : ContentHash D) :
    (io.ends st path o).survivor io.fold o h = io.picks st path o h := by
  obtain ⟨hnom, hfiles⟩ := CommitIo.ends_left (o := o) hcommits
  rw [PblockExport.survivor, picks]
  congr 1
  funext c
  rw [hnom, PblockExport.sameBytes, hown, hfiles]

/-! ## The publish -/

/-- The publish of `o` folds it onto `c`. -/
def FoldIo.FoldsTo (io : FoldIo B) (u : PblockExport P B D) (o : PblockMeta B)
    (hash : Option (ContentHash D)) (c : B) : Prop :=
  ∃ h, hash = some h ∧ o.size ≠ 0 ∧ io.counts = true ∧ u.survivor io o h = some c ∧
    io.bumps = true ∧ io.repoints = true

omit [DecidableEq B] [DecidableEq D] in
theorem Shows.refl (hrow : u.objects path = some o) : Shows u u path o o := by
  refine ⟨rfl, ?_, fun _ _ => rfl, fun _ _ => rfl⟩
  rw [← hrow, update_eq_self]

omit [DecidableEq B] [DecidableEq D] in
theorem Shows.of_blobs (h : Shows u t path o o') {t' : PblockExport P B D}
    (hobj : t'.objects = t.objects) (hsaved : t'.saved = t.saved) (hfiles : t'.files = t.files)
    (hlost : t'.lost = t.lost) : Shows u t' path o o' := by
  refine ⟨hsaved.trans h.saved, hobj.trans h.objects, ?_, ?_⟩
  · rw [hfiles]
    exact h.files
  · rw [hlost]
    exact h.lost

omit [DecidableEq D] in
theorem refsTrackKept_shows {io : FoldIo B} (h : Shows u t path o o) (hash : Option (ContentHash D)) :
    wp (fun t => Shows u t path o o) (refsTrackKept io o hash) (fun _ t => Shows u t path o o) t := by
  have htrack : Shows u (t.track o.blob o.size o.bs hash) path o o :=
    h.of_blobs (by simp) (by simp) (by simp) (by simp)
  rw [refsTrackKept, wp_bind, wp_attempt]
  split
  · exact ⟨htrack, (wp_pure _ _).mpr htrack⟩
  · exact (wp_pure _ _).mpr h

/-- A publish that folds onto no blob shows the new object throughout. -/
theorem pblockRefsDedupPublish_shows {io : FoldIo B} {hash : Option (ContentHash D)}
    (hrow : u.objects path = some o) (hno : ∀ c, ¬io.FoldsTo u o hash c) :
    wp (fun t => Shows u t path o o) (pblockRefsDedupPublish io path o hash)
      (fun _ t => Shows u t path o o) u := by
  have hrefl := Shows.refl hrow
  rw [pblockRefsDedupPublish, wp_bind, wp_gets]
  cases hash with
  | none => exact refsTrackKept_shows hrefl none
  | some h =>
    simp only [wp_ite, wp_bind]
    split
    · exact refsTrackKept_shows hrefl (some h)
    next hcond =>
    obtain ⟨⟨hsize, hcounts⟩, -⟩ : (o.size ≠ 0 ∧ io.counts = true) ∧ u.refsCount o.blob = 1 := by
      simpa [and_assoc] using hcond
    rw [refsFoldByHash, wp_bind, wp_gets]
    cases hc : u.survivor io o h with
    | none => exact (wp_pure _ _).mpr (refsTrackKept_shows hrefl (some h))
    | some c =>
      have hbump : Shows u (u.bump c o.size o.bs) path o o :=
        hrefl.of_blobs (by simp) (by simp) (by simp) (by simp)
      simp only [wp_bind, wp_attempt, Bool.not_true, Bool.not_false, Bool.false_eq_true, if_false,
        if_true]
      split
      · next hbumps =>
        refine ⟨hbump, ?_⟩
        split
        · next hrepoints =>
          exact absurd ⟨h, rfl, hsize, hcounts, hc, hbumps, hrepoints⟩ (hno c)
        · -- the reference just counted is taken back, and no other
          obtain ⟨r, hr, -, -, -, -, hpos, -⟩ := u.survivor_spec hc
          have hshared : ¬io.undo.Unlinks (u.bump c o.size o.bs) { o with blob := c } := by
            rintro ⟨-, hle, -⟩
            obtain ⟨r', heq, -, hcount, -⟩ := u.bump_eq c o.size o.bs
            obtain ⟨htwo, -⟩ := hcount fun row hrow => by
              obtain rfl := Option.some.inj (hr.symm.trans hrow)
              exact hpos
            rw [heq, PblockExport.refsCount_setBlob_some] at hle
            omega
          have hkeep : ∀ t, Aside io.undo { o with blob := c } (u.bump c o.size o.bs) t →
              Shows u t path o o := by
            intro t ht
            have hfiles : t.files = (u.bump c o.size o.bs).files :=
              funext fun b => ht.files b (.inr hshared)
            have hlost : t.lost = (u.bump c o.size o.bs).lost :=
              funext fun b => ht.lost b (.inr hshared)
            exact hbump.of_blobs ht.objects ht.saved hfiles hlost
          refine wp_mono (pblockRefsRelease_aside io.undo) hkeep ?_
          intro _ t ht
          exact (wp_pure _ _).mpr ((wp_pure _ _).mpr (hkeep t ht))
      · exact (wp_pure _ _).mpr (refsTrackKept_shows hrefl (some h))

/-- A fold shows the other blob from its second step on. -/
theorem pblockRefsDedupPublish_fold_shows {io : FoldIo B} {hash : Option (ContentHash D)} {c : B}
    (hrow : u.objects path = some o) (hone : u.refsCount o.blob = 1) (hfolds : io.FoldsTo u o hash c) :
    (n < 2 → Shows u ((pblockRefsDedupPublish io path o hash).stopAt n u) path o o) ∧
      (2 ≤ n →
        Shows u ((pblockRefsDedupPublish io path o hash).stopAt n u) path o { o with blob := c }) := by
  obtain ⟨h, rfl, hsize, hcounts, hc, hbumps, hrepoints⟩ := hfolds
  let v := (u.bump c o.size o.bs).repoint path c
  have hcuts : (pblockRefsDedupPublish io path o (some h) u).cuts =
      u.bump c o.size o.bs :: v :: (pblockRefsRelease io.own o v).cuts := by
    have hcond : ¬(o.size = 0 ∨ (!io.counts) = true ∨ u.refsCount o.blob ≠ 1) := by
      simp [hsize, hcounts, hone]
    rw [pblockRefsDedupPublish, gets_bind]
    simp only [if_neg hcond]
    rw [cuts_bind, refsFoldByHash, gets_bind, hc, hbumps, hrepoints]
    change u.bump c o.size o.bs :: v :: ((pblockRefsRelease io.own o v).cuts ++ []) ++ [] = _
    rw [List.append_nil, List.append_nil]
  have hbump : Shows u (u.bump c o.size o.bs) path o o :=
    (Shows.refl hrow).of_blobs (by simp) (by simp) (by simp) (by simp)
  have hshown : ∀ t, Aside io.own o v t → Shows u t path o { o with blob := c } := by
    intro t ht
    have hne : ({ o with blob := c } : PblockMeta B) ≠ o := by
      intro heq
      obtain ⟨r, -, -, -, -, hcb, -⟩ := u.survivor_spec hc
      exact hcb (congrArg PblockMeta.blob heq)
    have hobj : v.objects = update u.objects path (some { o with blob := c }) := by
      simp [v, PblockExport.repoint, PblockExport.setObject, hrow]
    refine ⟨ht.saved.trans (u.bump_saved c o.size o.bs), ht.objects.trans hobj, ?_, ?_⟩
    · intro b hb
      rw [ht.files b (.inl (hb.resolve_right hne))]
      exact congrFun (u.bump_files c o.size o.bs) b
    · intro b hb
      rw [ht.lost b (.inl (hb.resolve_right hne))]
      exact congrFun (u.bump_lost c o.size o.bs) b
  constructor
  · intro hlt
    rw [stopAt, hcuts]
    obtain rfl | rfl := Nat.le_one_iff_eq_zero_or_eq_one.mp (Nat.le_of_lt_succ hlt)
    · exact .refl hrow
    · exact hbump
  · intro hle
    obtain ⟨m, rfl⟩ := Nat.exists_eq_add_of_le' hle
    have hstop : (pblockRefsDedupPublish io path o (some h)).stopAt (m + 2) u =
        (pblockRefsRelease io.own o).stopAt m v := by
      simp only [stopAt, hcuts, List.take_succ_cons, Trail.last, List.getLastD_cons]
    rw [hstop]
    apply hshown
    exact wp_stopAt (pblockRefsRelease_aside io.own)
      ⟨rfl, rfl, fun _ _ => rfl, fun _ _ => rfl, fun _ _ => rfl⟩ m

/-! ## The commit -/

/-- No stop, and no failure, between the first unlinked block file of the destination and
the `COMMIT`. -/
def CommitIo.KeepsOld (io : CommitIo B) (st : PblockExport P B D) (path : P) (o : PblockMeta B)
    (n : ℕ) : Prop :=
  ∀ old, st.objects path = some old → io.drop.looksUp = true → io.drop.gates = true →
    io.drop.release.Unlinks st old →
    n ≤ io.drop.release.quiet st old + 1 ∨ (io.Commits st path ∧ io.steps st path o < n)

/-- A blob that the publish has folded the new one onto, and switched the row to, was there before
with all its block files and the right bytes, and keeps its block files. -/
def CommitIo.FoldsWell (io : CommitIo B) (st : PblockExport P B D) (path : P) (o : PblockMeta B)
    (hash : Option (ContentHash D)) (n : ℕ) : Prop :=
  ∀ h c, io.Commits st path → io.steps st path o + 2 < n → hash = some h → o.size ≠ 0 →
    io.fold.counts = true → io.fold.bumps = true → io.fold.repoints = true →
    io.picks st path o h = some c →
    (st.readObject { o with blob := c } = st.readPath path ∨
      st.readObject { o with blob := c } = st.readObject o) ∧
    st.lost c = false ∧ ¬io.drop.Loses st path c

omit [DecidableEq P] [DecidableEq D] in
theorem DropIo.Loses.eq_path {io : DropIo} (hsafe : Safe st) {b : B} (h : io.Loses st path b)
    {q : P} (hq : st.holds q = some b) : q = path := by
  obtain ⟨old, hobj, rfl, -, -, -, hone, -⟩ := h
  refine hsafe.covered.counted.unique hone hq ?_
  rw [PblockExport.holds, hobj]
  rfl

omit [DecidableEq D] in
theorem CommitIo.ends_reads_iff {io : CommitIo B} (hcommits : io.Commits st path) (c : B) :
    ((io.ends st path o).readObject { o with blob := c } = st.readPath path ∨
        (io.ends st path o).readObject { o with blob := c } = st.readObject o) ∧
      (io.ends st path o).lost c = false ↔
    (st.readObject { o with blob := c } = st.readPath path ∨
        st.readObject { o with blob := c } = st.readObject o) ∧
      st.lost c = false ∧ ¬io.drop.Loses st path c := by
  obtain ⟨hgo, -, hafter⟩ | ⟨-, hfails, -⟩ := io.ends_spec st path o
  swap
  · exact absurd hcommits hfails
  by_cases hloses : io.drop.Loses st path c
  · have hlost : (io.ends st path o).lost c = true := by
      obtain ⟨old, hobj, rfl, hlooks, hgates, hunlinks⟩ := hloses
      obtain ⟨hlen, hgone⟩ := pblockStagedTx_gone (o := o) hobj hlooks hgates hunlinks
      rw [ends]
      simp only [hgo, if_true]
      change ((pblockStagedTx io path o st.beginTx).last st.beginTx).lost old.blob = true
      rw [← stopAt_of_le (Nat.le_refl _)]
      exact hgone _ hlen
    simp [hlost, hloses]
  · rw [PblockExport.readObject, hafter.files c hloses, hafter.lost c hloses]
    simp only [hloses, not_false_eq_true, and_true]
    rfl

omit [DecidableEq B] [DecidableEq P] [DecidableEq D] in
theorem DropIo.not_loses {io : DropIo} {b : B} (hfresh : Vacant st b) : ¬io.Loses st path b := by
  rintro ⟨old, hobj, hblob, -⟩
  apply hfresh.unnamed path
  rw [PblockExport.holds, hobj, ← hblob]
  rfl

/-- A commit that came to its COMMIT, by the blob that it folds onto -/
theorem CommitIo.ends_atomicAt_iff {io : CommitIo B} {hash : Option (ContentHash D)}
    (hsafe : Safe st) (hfresh : Vacant st o.blob) (hcommits : io.Commits st path) (n : ℕ) :
    AtomicAt st ((pblockRefsDedupPublish io.fold path o hash).stopAt n (io.ends st path o)).recover
        path o ↔
      ∀ c, 1 < n → io.fold.FoldsTo (io.ends st path o) o hash c →
        ((io.ends st path o).readObject { o with blob := c } = st.readPath path ∨
          (io.ends st path o).readObject { o with blob := c } = st.readObject o) ∧
        (io.ends st path o).lost c = false := by
  obtain ⟨-, -, hafter⟩ | ⟨-, hfails, -⟩ := io.ends_spec st path o
  swap
  · exact absurd hcommits hfails
  let u := io.ends st path o
  have hrow : u.objects path = some o := by
    rw [hafter.objects, update_self]
  have hkept : ¬io.drop.Loses st path o.blob := DropIo.not_loses hfresh
  have hone : u.refsCount o.blob = 1 := by
    apply PblockExport.refsCount_of_none
    rw [hafter.unnamed o.blob hfresh.unnamed]
    exact hfresh.row
  have hheld : ∀ q ≠ path, ∀ b, u.holds q = some b → u.lost b = false ∧ b ≠ o.blob := by
    intro q hq b hb
    have hst : st.holds q = some b := by
      rw [PblockExport.holds, hafter.objects, update_of_ne hq] at hb
      exact hb
    constructor
    · rw [hafter.lost b fun hloses => hq (hloses.eq_path hsafe hst)]
      exact hsafe.covered.held q b hst
    · rintro rfl
      exact hfresh.unnamed q hst
  have hown : (u.readObject o = st.readPath path ∨ u.readObject o = st.readObject o) ∧
      u.lost o.blob = false := by
    constructor
    · right
      rw [PblockExport.readObject, PblockExport.readObject, hafter.files o.blob hkept]
    · rw [hafter.lost o.blob hkept]
      exact hfresh.lost
  have hidle : ∀ {o' t}, Shows u t path o o' → t.recover = t := fun h =>
    PblockExport.recover_of_idle (h.saved.trans hafter.saved)
  have hkeeps : ∀ {t}, Shows u t path o o → AtomicAt st t.recover path o := by
    intro t ht
    rw [hidle ht]
    exact (ht.atomicAt_iff (.inl rfl) hheld).mpr hown
  by_cases hfold : ∃ c, io.fold.FoldsTo u o hash c
  · obtain ⟨c, hc⟩ := hfold
    obtain ⟨hbefore, hswitched⟩ := pblockRefsDedupPublish_fold_shows (n := n) hrow hone hc
    have honly : ∀ c', io.fold.FoldsTo u o hash c' → c' = c := by
      rintro c' ⟨h', hh', -, -, hc', -⟩
      obtain ⟨h, rfl, -, -, hc, -⟩ := hc
      cases hh'
      exact Option.some.inj (hc'.symm.trans hc)
    have hne : c ≠ o.blob := by
      obtain ⟨h, -, -, -, hsurvivor, -⟩ := hc
      obtain ⟨r, -, -, -, -, hne, -⟩ := u.survivor_spec hsurvivor
      exact hne
    obtain hlt | hle := Nat.lt_or_ge n 2
    · constructor
      · intro _ c' hn
        omega
      · intro _
        exact hkeeps (hbefore hlt)
    · have hshown := hswitched hle
      rw [hidle hshown, hshown.atomicAt_iff (.inr hne) hheld]
      constructor
      · intro hall c' _ hc'
        obtain rfl := honly c' hc'
        exact hall
      · intro hall
        exact hall c hle hc
  · have hno : ∀ c, ¬io.fold.FoldsTo u o hash c := fun c hc => hfold ⟨c, hc⟩
    have hall := wp_stopAt (pblockRefsDedupPublish_shows hrow hno) (.refl hrow) n
    constructor
    · intro _ c _ hc
      exact absurd hc (hno c)
    · intro _
      exact hkeeps hall

attribute [local instance] neZero_four

/-- Path 0 names the blob 7, and the blob 8 is staged, of one byte each. -/
def stagedOver : PblockExport ℕ ℕ ℕ where
  objects := update (fun _ => none) 0 (some ⟨7, 1, 4⟩)
  blobs _ := none
  saved := none
  files := update (update (fun _ _ => none) 7
    (update (fun _ => none) 0 (some [1]))) 8 (update (fun _ => none) 0 (some [2]))
  lost _ := false

theorem stagedOver_holds {p b : ℕ} (h : stagedOver.holds p = some b) : p = 0 ∧ b = 7 := by
  obtain ⟨row, hrow, rfl⟩ := Option.map_eq_some_iff.mp h
  have hrow' : update (fun _ => none) 0 (some ⟨7, 1, 4⟩) p = some row := hrow
  obtain ⟨rfl, hsome⟩ | ⟨-, hnone⟩ := of_update_eq_some hrow'
  · cases hsome
    exact ⟨rfl, rfl⟩
  · cases hnone

theorem stagedOver_safe : Safe stagedOver := by
  refine ⟨rfl, ?_, fun _ _ _ => rfl, nofun, nofun, nofun⟩
  intro b S hS
  have hcard : S.card ≤ 1 := by
    apply Finset.card_le_one.mpr
    intro p hp q hq
    rw [(stagedOver_holds (hS p hp)).1, (stagedOver_holds (hS q hq)).1]
  exact hcard

theorem stagedOver_vacant : Vacant stagedOver 8 := by
  refine ⟨rfl, ?_, rfl⟩
  intro p hp
  cases (stagedOver_holds hp).2

/-- Nothing fails. -/
def smoothCommit : CommitIo ℕ where
  begins := true
  drop := ⟨true, true, ⟨true, true, true, fun _ => true⟩, ⟨true, true⟩⟩
  puts := true
  commits := true
  fold := ⟨true, true, true, true, true, [], fun _ => true, true, true, true,
    ⟨true, true, true, fun _ => true⟩, ⟨true, true, true, fun _ => true⟩⟩

end BrixCache
