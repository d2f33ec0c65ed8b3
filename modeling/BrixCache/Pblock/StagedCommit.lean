import BrixCache.Pblock.RefsCalls

/-!
# The staged commit

`sd_pblock_staged_commit` drops what it overwrites inside the catalog's transaction.
A rollback, or the recovery after a crash, takes the rows back but no block file: what
was unlinked before the commit stays unlinked.
-/

namespace BrixCache

open Proc Function List

variable {P B D : Type} {own : List P} {st s t : PblockExport P B D} {path : P}
  {o old : PblockMeta B} {n : ℕ}

/-- What a release of `o` leaves alone. -/
structure Aside (io : ReleaseIo) (o : PblockMeta B) (s t : PblockExport P B D) : Prop where
  objects : t.objects = s.objects
  saved : t.saved = s.saved
  blobs : ∀ c ≠ o.blob, t.blobs c = s.blobs c
  files : ∀ c, c ≠ o.blob ∨ ¬io.Unlinks s o → t.files c = s.files c
  lost : ∀ c, c ≠ o.blob ∨ ¬io.Unlinks s o → t.lost c = s.lost c

/-- In the transaction of a commit: the rows can be had back, and block files are
missing of the blobs in `G` alone. -/
structure InTx (G : B → Prop) (st t : PblockExport P B D) : Prop where
  saved : t.saved = some ⟨st.objects, st.blobs⟩
  unnamed : ∀ c, (∀ p, st.holds p ≠ some c) → t.blobs c = st.blobs c
  files : ∀ c, ¬G c → t.files c = st.files c
  lost : ∀ c, ¬G c → t.lost c = st.lost c

/-- After the transaction of a commit, with the rows `rows`. -/
structure AfterTx (G : B → Prop) (rows : P → Option (PblockMeta B)) (st t : PblockExport P B D) :
    Prop where
  objects : t.objects = rows
  saved : t.saved = none
  unnamed : ∀ c, (∀ p, st.holds p ≠ some c) → t.blobs c = st.blobs c
  files : ∀ c, ¬G c → t.files c = st.files c
  lost : ∀ c, ¬G c → t.lost c = st.lost c

theorem PblockExport.recover_of_idle (h : t.saved = none) : t.recover = t := by
  rw [recover, h]

theorem InTx.recover {G : B → Prop} (h : InTx G st t) :
    AfterTx G st.objects st t.recover ∧ t.recover.blobs = st.blobs ∧ t.recover.lost = t.lost := by
  rw [PblockExport.recover, h.saved]
  exact ⟨⟨rfl, rfl, fun _ _ => rfl, h.files, h.lost⟩, rfl, rfl⟩

theorem InTx.recover_eq {G : B → Prop} (h : InTx G st t) (hidle : st.saved = none)
    (hG : ∀ c, ¬G c) : t.recover = st := by
  have hfiles : t.files = st.files := funext fun c => h.files c (hG c)
  have hlost : t.lost = st.lost := funext fun c => h.lost c (hG c)
  rw [PblockExport.recover, h.saved]
  simp only [hfiles, hlost, ← hidle]

variable [DecidableEq B]

theorem pblockRefsRelease_aside (io : ReleaseIo) :
    wp (Aside io o s) (pblockRefsRelease io o) (fun _ => Aside io o s) s := by
  have hrefl : Aside io o s s := ⟨rfl, rfl, fun _ _ => rfl, fun _ _ => rfl, fun _ _ => rfl⟩
  rw [pblockRefsRelease, wp_bind, wp_gets, wp_ite, wp_ite]
  split
  · exact (wp_pure _ _).mpr hrefl
  next hcounts =>
  have hcounts' : io.counts = true := by simpa using hcounts
  split
  · next hone =>
    have hloop : ∀ t, Aside io o s t → t.files = s.files →
        wp (Aside io o s) (refsRemove io.unlinks o) (fun _ => Aside io o s) t := by
      intro t ht hfiles
      let I : PblockExport P B D → Prop := fun u => Aside io o s u ∧
        ∀ k, (u.files o.blob k).isSome = true → (s.files o.blob k).isSome = true
      refine wp_mono (wp_forEach I ?_ ⟨ht, by rw [hfiles]; exact fun _ h => h⟩) (fun _ hu => hu)
        fun _ u hu => hu.1
      rintro k hkr u ⟨hu, hsome⟩
      simp only [refsUnlinkBlock, wp_bind, wp_gets, wp_attempt, wp_pure]
      split
      · next hgo =>
        obtain ⟨hhere, hunlink⟩ := Bool.and_eq_true_iff.mp hgo
        have hlt := mem_range.mp hkr
        have hunlinks : io.Unlinks s o := ⟨hcounts', hone, k, by omega, hsome k hhere, hunlink⟩
        have hdrop : Aside io o s (u.dropBlock o.blob k) := by
          refine ⟨hu.objects, hu.saved, hu.blobs, ?_, ?_⟩
          · intro c hc
            have hne : c ≠ o.blob := hc.resolve_right (not_not.mpr hunlinks)
            rw [PblockExport.dropBlock_files_of_ne hne]
            exact hu.files c hc
          · intro c hc
            have hne : c ≠ o.blob := hc.resolve_right (not_not.mpr hunlinks)
            rw [← hu.lost c hc]
            exact update_of_ne hne _ _
        refine ⟨hdrop, hdrop, ?_⟩
        intro j hj
        rw [PblockExport.dropBlock_files_self] at hj
        by_cases hjk : j = k
        · subst hjk
          exact hsome j hhere
        · rw [update_of_ne hjk] at hj
          exact hsome j hj
      · exact ⟨hu, hsome⟩
    rw [wp_bind, wp_attempt]
    split
    · have hdrop : Aside io o s (s.setBlob o.blob none) :=
        ⟨rfl, rfl, fun _ hc => update_of_ne hc _ _, fun _ _ => rfl, fun _ _ => rfl⟩
      exact ⟨hdrop, hloop _ hdrop rfl⟩
    · exact hloop s hrefl rfl
  · rw [wp_bind, wp_attempt]
    split
    · have hlower : Aside io o s (s.lower o.blob) :=
        ⟨rfl, rfl, fun _ hc => update_of_ne hc _ _, fun _ _ => rfl, fun _ _ => rfl⟩
      exact ⟨hlower, (wp_pure _ _).mpr hlower⟩
    · exact (wp_pure _ _).mpr hrefl

theorem forEach_unlink_cuts {unlinks : ℕ → Bool} {ks : List ℕ} {k : ℕ} (hk : k ∈ ks)
    (hhere : (s.files o.blob k).isSome = true) (hunlink : unlinks k = true) :
    (forEach (refsUnlinkBlock unlinks o) ks s).cuts ≠ [] := by
  induction ks with
  | nil => cases hk
  | cons j ks ih =>
    rw [forEach, cuts_bind]
    by_cases hgo : ((s.files o.blob j).isSome && unlinks j) = true
    · have hcuts : (refsUnlinkBlock unlinks o j s).cuts = [s.dropBlock o.blob j] := by
        rw [refsUnlinkBlock, gets_bind, hgo]
        rfl
      rw [hcuts]
      exact cons_ne_nil _ _
    · have hstay : refsUnlinkBlock unlinks o j s = ⟨[], ()⟩ := by
        rw [refsUnlinkBlock, gets_bind, (Bool.not_eq_true _).mp hgo]
        rfl
      rw [hstay]
      obtain rfl | hin := mem_cons.mp hk
      · rw [hhere, hunlink] at hgo
        exact absurd rfl hgo
      · exact ih hin

theorem refsRemove_gone (unlinks : ℕ → Bool) :
    wp (fun t => t.lost o.blob = true) (refsRemove unlinks o) (fun _ _ => True) s := by
  apply wp_forEach (fun _ => True)
  · intro k _ t _
    simp only [refsUnlinkBlock, wp_bind, wp_gets, wp_attempt, wp_pure]
    split
    · next hgo =>
      refine ⟨?_, trivial⟩
      rw [PblockExport.dropBlock, (Bool.and_eq_true_iff.mp hgo).1]
      simp
    · trivial
  · trivial

theorem pblockRefsRelease_gone {io : ReleaseIo} (h : io.Unlinks s o) :
    io.quiet s o < (pblockRefsRelease io o s).cuts.length ∧
      (∀ n, io.quiet s o < n → ((pblockRefsRelease io o).stopAt n s).lost o.blob = true) := by
  obtain ⟨hcounts, hone, k, hk, hhere, hunlink⟩ := h
  let f : PblockExport P B D → PblockExport P B D := fun s => s.setBlob o.blob none
  have hrel : pblockRefsRelease io o s =
      (attempt io.drops f >>= fun _ => refsRemove io.unlinks o) s := by
    rw [pblockRefsRelease, gets_bind, hcounts, if_neg (by simp), if_pos hone]
  have hquiet : io.quiet s o = (attempt io.drops f s).cuts.length := by
    rw [ReleaseIo.quiet]
    cases hdrops : io.drops <;> simp [hcounts, hone, attempt]
  have hfiles : ((attempt io.drops f s).last s).files = s.files := by
    cases io.drops <;> rfl
  have hcuts : (refsRemove io.unlinks o ((attempt io.drops f s).last s)).cuts ≠ [] := by
    apply forEach_unlink_cuts (k := k) (mem_range.mpr (by omega)) _ hunlink
    rw [hfiles]
    exact hhere
  have hpos := length_pos_of_ne_nil hcuts
  constructor
  · rw [hrel, cuts_bind, length_append]
    omega
  · intro n hn
    have hstop : (pblockRefsRelease io o).stopAt n s =
        (attempt io.drops f >>= fun _ => refsRemove io.unlinks o).stopAt n s := by
      rw [stopAt, stopAt, hrel]
    rw [hstop, stopAt_bind, if_neg (by omega)]
    have hleft : 0 < n - (attempt io.drops f s).cuts.length := by omega
    exact stopAt_of_pos (C := fun t => t.lost o.blob = true) (refsRemove_gone io.unlinks).1 hleft hcuts

variable [DecidableEq P]

/-! ## The transaction -/

/-- A removal with `io` unlinks a block file of `b`. -/
def DropIo.Loses (io : DropIo) (st : PblockExport P B D) (path : P) (b : B) : Prop :=
  ∃ old, st.objects path = some old ∧ old.blob = b ∧ io.looksUp = true ∧ io.gates = true ∧
    io.release.Unlinks st old

/-- The destination is dropped, or there is none. -/
def DropIo.Prepares (io : DropIo) (st : PblockExport P B D) (path : P) : Prop :=
  io.looksUp = true ∧ io.gates = true ∧
    ((st.objects path).isSome = true → io.remove.row = true ∧ io.remove.xattrs = true)

/-- Every step of the transaction succeeds. -/
def CommitIo.Commits (io : CommitIo B) (st : PblockExport P B D) (path : P) : Prop :=
  io.drop.Prepares st path ∧ io.puts = true ∧ io.commits = true

theorem pblockStagedPrepareDestination_inTx (io : DropIo) :
    wp (InTx (io.Loses st path) st) (pblockStagedPrepareDestination io path)
      (fun ok t => InTx (io.Loses st path) st t ∧ (ok = true ↔ io.Prepares st path) ∧
        (ok = true → t.objects = update st.objects path none)) st.beginTx := by
  have hbegin : InTx (io.Loses st path) st st.beginTx :=
    ⟨rfl, fun _ _ => rfl, fun _ _ => rfl, fun _ _ => rfl⟩
  rw [pblockStagedPrepareDestination, wp_bind, wp_gets, wp_ite]
  split
  · next hgates =>
    refine (wp_pure _ _).mpr ⟨hbegin, ?_, (fun h => by cases h)⟩
    simp only [Bool.false_eq_true, false_iff]
    rintro ⟨hlooks, hok, -⟩
    simp [hlooks, hok] at hgates
  next hgates =>
  obtain ⟨hlooks, hok⟩ : io.looksUp = true ∧ io.gates = true := by simpa using hgates
  have hrow : st.beginTx.objects path = st.objects path := rfl
  rw [hrow]
  cases hobj : st.objects path with
  | none =>
    refine (wp_pure _ _).mpr ⟨hbegin, ?_, fun _ => ?_⟩
    · simp [DropIo.Prepares, hlooks, hok, hobj]
    · rw [← hobj, update_eq_self]
      rfl
  | some old =>
    have hinTx : ∀ t, Aside io.release old st.beginTx t → InTx (io.Loses st path) st t := by
      intro t ht
      have hout : ∀ c, ¬io.Loses st path c → c ≠ old.blob ∨ ¬io.release.Unlinks st.beginTx old := by
        intro c hc
        by_contra hnot
        obtain ⟨heq, hunlinks⟩ := not_or.mp hnot
        exact hc ⟨old, hobj, (not_not.mp heq).symm, hlooks, hok, not_not.mp hunlinks⟩
      have hunnamed : ∀ c, (∀ p, st.holds p ≠ some c) → t.blobs c = st.blobs c := by
        intro c hc
        apply ht.blobs c
        rintro rfl
        apply hc path
        rw [PblockExport.holds, hobj]
        rfl
      exact ⟨ht.saved, hunnamed, fun c hc => ht.files c (hout c hc),
        fun c hc => ht.lost c (hout c hc)⟩
    simp only
    rw [sdPblockDropDst, wp_bind]
    refine wp_mono (pblockRefsRelease_aside io.release) hinTx ?_
    intro _ t ht
    have htx := hinTx t ht
    have hgone : InTx (io.Loses st path) st (t.setObject path none) :=
      ⟨htx.saved, htx.unnamed, htx.files, htx.lost⟩
    rw [pblockCatalogRemove, wp_bind, wp_attempt]
    split
    · next hremoves =>
      refine ⟨hgone, (wp_pure _ _).mpr ⟨hgone, ?_, fun _ => ?_⟩⟩
      · simp [DropIo.Prepares, hlooks, hok, hobj, hremoves]
      · rw [PblockExport.setObject, ht.objects]
        rfl
    · next hremoves =>
      refine (wp_pure _ _).mpr ⟨htx, ?_, (fun h => by cases h)⟩
      simp [DropIo.Prepares, hobj, hremoves]

variable (st path o) in
theorem pblockStagedTx_inTx (io : CommitIo B) :
    wp (InTx (io.drop.Loses st path) st) (pblockStagedTx io path o)
      (fun ok t => InTx (io.drop.Loses st path) st t ∧
        (ok = true ↔ io.drop.Prepares st path ∧ io.puts = true) ∧
        (ok = true → t.objects = update st.objects path (some o))) st.beginTx := by
  rw [pblockStagedTx, wp_bind]
  refine wp_mono (pblockStagedPrepareDestination_inTx io.drop) (fun _ ht => ht) ?_
  rintro prepared t ⟨ht, hprepared, hobj⟩
  rw [wp_attempt]
  split
  · next hputs =>
    obtain ⟨hprep, hput⟩ := Bool.and_eq_true_iff.mp hputs
    have htx : InTx (io.drop.Loses st path) st (t.setObject path (some o)) :=
      ⟨ht.saved, ht.unnamed, ht.files, ht.lost⟩
    refine ⟨htx, htx, ?_, fun _ => ?_⟩
    · simp [hprepared.mp hprep, hput]
    · rw [PblockExport.setObject, hobj hprep, update_idem]
  · next hputs =>
    refine ⟨ht, ?_, (fun h => by cases h)⟩
    rw [← hprepared]
    simpa using hputs

/-- The catalog as the transaction of a commit leaves it, made or taken back. -/
def CommitIo.ends (io : CommitIo B) (st : PblockExport P B D) (path : P) (o : PblockMeta B) :
    PblockExport P B D :=
  let t := pblockStagedTx io path o st.beginTx
  if t.value && io.commits then (t.last st.beginTx).commitTx else (t.last st.beginTx).recover

/-- The steps of a transaction, `BEGIN` among them. -/
def CommitIo.steps (io : CommitIo B) (st : PblockExport P B D) (path : P) (o : PblockMeta B) : ℕ :=
  (pblockStagedTx io path o st.beginTx).cuts.length + 1

variable {io : CommitIo B} {hash : Option (ContentHash D)}

theorem pblockStagedPut_eq (hbegins : io.begins = true) :
    pblockStagedPut io path o st =
      ⟨st.beginTx :: (pblockStagedTx io path o st.beginTx).cuts ++ [io.ends st path o],
        (pblockStagedTx io path o st.beginTx).value && io.commits⟩ := by
  let k : Bool → Proc (PblockExport P B D) Bool := fun put => do
    let committed ← attempt (put && io.commits) fun st => st.commitTx
    if committed then pure true
    else
      step fun st => st.recover
      pure false
  have hput : pblockStagedPut io path o st =
      (attempt true (fun s : PblockExport P B D => s.beginTx) >>=
        fun _ => pblockStagedTx io path o >>= k) st := by
    rw [pblockStagedPut, hbegins]
    rfl
  have hk : ∀ put t, k put t =
      ⟨[if put && io.commits then t.commitTx else t.recover], put && io.commits⟩ := by
    intro put t
    cases hgo : put && io.commits with
    | true | false =>
      simp only [k, hgo]
      rfl
  rw [hput]
  change Trail.mk ([st.beginTx] ++ ((pblockStagedTx io path o st.beginTx).cuts ++
    (k _ ((pblockStagedTx io path o st.beginTx).last st.beginTx)).cuts)) (k _ _).value = _
  rw [hk, hk]
  rfl

theorem pblockStagedPut_stopAt (hbegins : io.begins = true) :
    (pblockStagedPut io path o).stopAt n st =
      if n = 0 then st
      else if n ≤ io.steps st path o then (pblockStagedTx io path o).stopAt (n - 1) st.beginTx
      else io.ends st path o := by
  rw [stopAt, pblockStagedPut_eq hbegins]
  cases n with
  | zero => rfl
  | succ n =>
    rw [if_neg (Nat.succ_ne_zero n), cons_append, take_succ_cons, Trail.last,
      getLastD_cons, take_append, Nat.add_sub_cancel]
    split
    · next hle =>
      rw [CommitIo.steps] at hle
      rw [Nat.sub_eq_zero_of_le (by omega), take_zero, append_nil]
      rfl
    · next hlt =>
      rw [CommitIo.steps] at hlt
      rw [take_of_length_le (l := [_]) (by rw [length_singleton]; omega),
        getLastD_concat]

variable (st path o) in
/-- Where a commit stands behind its transaction: through, or taken back -/
theorem CommitIo.ends_spec (io : CommitIo B) :
    ((pblockStagedTx io path o st.beginTx).value && io.commits) = true ∧ io.Commits st path ∧
        AfterTx (io.drop.Loses st path) (update st.objects path (some o)) st
          (io.ends st path o) ∨
      ((pblockStagedTx io path o st.beginTx).value && io.commits) = false ∧ ¬io.Commits st path ∧
        AfterTx (io.drop.Loses st path) st.objects st (io.ends st path o) ∧
        (io.ends st path o).blobs = st.blobs ∧
        (io.ends st path o).lost = ((pblockStagedTx io path o st.beginTx).last st.beginTx).lost := by
  obtain ⟨-, htx, hvalue, hobj⟩ := pblockStagedTx_inTx st path o io
  have hends : io.ends st path o =
      if (pblockStagedTx io path o st.beginTx).value && io.commits then
        ((pblockStagedTx io path o st.beginTx).last st.beginTx).commitTx
      else ((pblockStagedTx io path o st.beginTx).last st.beginTx).recover := rfl
  cases hgo : (pblockStagedTx io path o st.beginTx).value && io.commits with
  | true =>
    obtain ⟨hput, hcommits⟩ := Bool.and_eq_true_iff.mp hgo
    obtain ⟨hprepares, hputs⟩ := hvalue.mp hput
    rw [hgo, if_pos rfl] at hends
    rw [hends]
    have hafter : AfterTx (io.drop.Loses st path) (update st.objects path (some o)) st
        ((pblockStagedTx io path o st.beginTx).last st.beginTx).commitTx :=
      ⟨hobj hput, rfl, htx.unnamed, htx.files, htx.lost⟩
    exact .inl ⟨rfl, ⟨hprepares, hputs, hcommits⟩, hafter⟩
  | false =>
    rw [hgo, if_neg Bool.false_ne_true] at hends
    rw [hends]
    refine .inr ⟨rfl, ?_, htx.recover⟩
    rintro ⟨hprepares, hputs, hcommits⟩
    rw [hvalue.mpr ⟨hprepares, hputs⟩, hcommits] at hgo
    cases hgo

theorem CommitIo.ends_eq (hidle : st.saved = none)
    (hno : ((pblockStagedTx io path o st.beginTx).value && io.commits) = false)
    (hnone : ∀ c, ¬io.drop.Loses st path c) : io.ends st path o = st := by
  have hin : InTx (io.drop.Loses st path) st
      ((pblockStagedTx io path o st.beginTx).last st.beginTx) := (pblockStagedTx_inTx st path o io).2.1
  rw [ends]
  simp only [hno, Bool.false_eq_true, if_false]
  exact hin.recover_eq hidle hnone

theorem pblockStagedTx_drop (hobj : st.objects path = some old)
    (hlooks : io.drop.looksUp = true) (hgates : io.drop.gates = true) :
    (pblockStagedTx io path o).stopAt n st.beginTx =
      (sdPblockDropDst io.drop path old >>= fun prepared =>
        attempt (prepared && io.puts) fun u => u.setObject path (some o)).stopAt n st.beginTx ∧
    (pblockStagedTx io path o st.beginTx).cuts.length =
      ((sdPblockDropDst io.drop path old >>= fun prepared =>
        attempt (prepared && io.puts) fun u => u.setObject path (some o))
          st.beginTx).cuts.length := by
  have htx : pblockStagedTx io path o st.beginTx = (sdPblockDropDst io.drop path old >>=
      fun prepared => attempt (prepared && io.puts) fun u => u.setObject path (some o))
        st.beginTx := by
    have hrow : st.beginTx.objects path = some old := hobj
    have hprepare : pblockStagedPrepareDestination io.drop path st.beginTx =
        sdPblockDropDst io.drop path old st.beginTx := by
      rw [pblockStagedPrepareDestination, gets_bind, hlooks, hgates, hrow]
      rfl
    change Trail.mk _ _ = Trail.mk _ _
    rw [hprepare]
  rw [stopAt, stopAt, htx]
  exact ⟨rfl, rfl⟩

/-- An unlink in the transaction is not taken back with it. -/
theorem pblockStagedTx_gone (hobj : st.objects path = some old)
    (hlooks : io.drop.looksUp = true) (hgates : io.drop.gates = true)
    (hunlinks : io.drop.release.Unlinks st old) :
    io.drop.release.quiet st old < (pblockStagedTx io path o st.beginTx).cuts.length ∧
      ∀ m, io.drop.release.quiet st old < m →
        ((pblockStagedTx io path o).stopAt m st.beginTx).lost old.blob = true := by
  let C : PblockExport P B D → Prop := fun t => t.lost old.blob = true
  have hset : ∀ ok p row t, C t →
      wp C (attempt ok fun u : PblockExport P B D => u.setObject p row) (fun _ => C) t := by
    intro ok p row t ht
    rw [wp_attempt]
    split
    · exact ⟨ht, ht⟩
    · exact ht
  obtain ⟨hlen, hrelease⟩ := pblockRefsRelease_gone (s := st.beginTx) hunlinks
  have hdrop := stopAt_bind_after (f := fun _ => pblockCatalogRemove io.drop.remove path) (C := C)
    hlen hrelease (by
      intro _ t ht
      rw [pblockCatalogRemove, wp_bind]
      refine wp_mono (hset _ _ _ t ht) (fun _ h => h) ?_
      intro _ _ _
      exact (wp_pure _ _).mpr trivial)
  have hput := stopAt_bind_after hdrop.1 hdrop.2
    (f := fun prepared => attempt (prepared && io.puts) fun u => u.setObject path (some o)) (by
      intro _ t ht
      exact wp_mono (hset _ _ _ t ht) (fun _ h => h) fun _ _ _ => trivial)
  constructor
  · rw [(pblockStagedTx_drop (n := 0) hobj hlooks hgates).2]
    exact hput.1
  · intro m hm
    rw [(pblockStagedTx_drop hobj hlooks hgates).1]
    exact hput.2 m hm

theorem pblockStagedTx_recover (hidle : st.saved = none)
    (hearly : ∀ old, st.objects path = some old → io.drop.looksUp = true →
      io.drop.gates = true → io.drop.release.Unlinks st old → n ≤ io.drop.release.quiet st old) :
    ((pblockStagedTx io path o).stopAt n st.beginTx).recover = st := by
  by_cases hloses : ∃ b, io.drop.Loses st path b
  · obtain ⟨b, old, hobj, -, hlooks, hgates, hunlinks⟩ := hloses
    have hquiet : n ≤ io.drop.release.quiet st.beginTx old := hearly old hobj hlooks hgates hunlinks
    obtain ⟨hle, hstop⟩ := pblockRefsRelease_quiet hquiet
    have hback : ∀ t : PblockExport P B D, t.saved = some ⟨st.objects, st.blobs⟩ →
        t.files = st.files → t.lost = st.lost → t.recover = st := by
      intro t hsaved hfiles hlost
      rw [PblockExport.recover, hsaved]
      simp only [hfiles, hlost, ← hidle]
    rw [(pblockStagedTx_drop hobj hlooks hgates).1, stopAt_bind, sdPblockDropDst, if_pos, stopAt_bind,
      if_pos hle]
    · obtain heq | ⟨-, heq⟩ := hstop
      · rw [heq]
        exact hback _ rfl rfl rfl
      · rw [heq]
        exact hback _ rfl rfl rfl
    · rw [cuts_bind, length_append]
      omega
  · have hbegin : InTx (io.drop.Loses st path) st st.beginTx :=
    ⟨rfl, fun _ _ => rfl, fun _ _ => rfl, fun _ _ => rfl⟩
    have hin := wp_stopAt (pblockStagedTx_inTx st path o io) hbegin n
    exact hin.recover_eq hidle fun c hc => hloses ⟨c, hc⟩

/-! ## A commit among other calls -/

/-- A staged commit that unlinks block files of the destination is not stopped, and does
not fail, between the first of them and the `COMMIT`. -/
def CommitIo.Clean (io : CommitIo B) (st : PblockExport P B D) (path : P) (o : PblockMeta B)
    (n : ℕ) : Prop :=
  ∀ old, st.objects path = some old → io.begins = true → io.drop.looksUp = true →
    io.drop.gates = true → io.drop.release.Unlinks st old →
    n ≤ io.drop.release.quiet st old + 1 ∨
      (io.Commits st path ∧ io.steps st path o < n ∧ io.drop.release.Forgets st old)

/-- The counts inside the transaction -/
theorem pblockStagedTx_covered (hsafe : Safe st)
    (hforget : ∀ old, st.objects path = some old → io.drop.release.Forgets st old) :
    wp (fun _ => True) (pblockStagedTx io path o)
      (fun _ => Covered (update st.holds path none) []) st.beginTx := by
  have hbegin : Covered st.holds [] st.beginTx := hsafe.covered.congr rfl rfl
  have hprepare : wp (fun _ => True) (pblockStagedPrepareDestination io.drop path)
      (fun _ => Covered (update st.holds path none) []) st.beginTx := by
    rw [pblockStagedPrepareDestination, wp_bind, wp_gets, wp_ite]
    have hrow : st.beginTx.objects path = st.objects path := rfl
    rw [hrow]
    split
    · exact (wp_pure _ _).mpr (hbegin.hide path)
    cases hobj : st.objects path with
    | none => exact (wp_pure _ _).mpr (hbegin.hide path)
    | some old =>
      have hholds : st.holds path = some old.blob := by
        rw [PblockExport.holds, hobj]
        rfl
      simp only
      rw [sdPblockDropDst, wp_bind]
      refine wp_mono (pblockRefsRelease_spec (hbegin.letGo hholds) (hforget old hobj))
        (fun _ _ => trivial) ?_
      rintro _ t ⟨hcov, -⟩
      rw [pblockCatalogRemove, wp_bind, wp_attempt]
      split
      · exact ⟨trivial, (wp_pure _ _).mpr (hcov.congr rfl rfl)⟩
      · exact (wp_pure _ _).mpr hcov
  rw [pblockStagedTx, wp_bind]
  refine wp_mono hprepare (fun _ _ => trivial) ?_
  intro prepared t hcov
  rw [wp_attempt]
  split
  · exact ⟨trivial, hcov.congr rfl rfl⟩
  · exact hcov

/-- A commit that went through keeps the counts. -/
theorem CommitIo.ends_keeps (hsafe : Safe st) (hpath : path ∈ own) (hfresh : Vacant st o.blob)
    (hforget : ∀ old, st.objects path = some old → io.drop.release.Forgets st old)
    (hgo : ((pblockStagedTx io path o st.beginTx).value && io.commits) = true) :
    Keeps own st (io.ends st path o) ∧ (io.ends st path o).holds path = some o.blob ∧
      (io.ends st path o).blobs o.blob = none := by
  obtain ⟨-, -, hafter⟩ | ⟨hno, -⟩ := io.ends_spec st path o
  swap
  · rw [hgo] at hno
    cases hno
  have hcov := (pblockStagedTx_covered (o := o) hsafe hforget).2
  have hends : (io.ends st path o).blobs =
      ((pblockStagedTx io path o st.beginTx).last st.beginTx).blobs ∧
      (io.ends st path o).lost =
      ((pblockStagedTx io path o st.beginTx).last st.beginTx).lost := by
    simp only [ends, hgo, if_true]
    exact ⟨rfl, rfl⟩
  have hcov' := hcov.congr hends.1 hends.2
  have hlost : (io.ends st path o).lost o.blob = false := by
    rw [hafter.lost o.blob]
    · exact hfresh.lost
    · rintro ⟨old, hobj, hblob, -⟩
      apply hfresh.unnamed path
      rw [PblockExport.holds, hobj, ← hblob]
      rfl
  have hholds : (io.ends st path o).holds = update st.holds path (some o.blob) := by
    funext q
    rw [PblockExport.holds, hafter.objects]
    by_cases hq : q = path
    · subst hq
      simp
    · rw [update_of_ne hq, update_of_ne hq]
      rfl
  have hfree : ∀ p, update st.holds path none p ≠ some o.blob := by
    intro p hp
    obtain ⟨-, hnone⟩ | ⟨-, hold⟩ := of_update_eq_some hp
    · cases hnone
    · exact hfresh.unnamed p hold
  refine ⟨⟨⟨hafter.saved, ?_⟩, ?_, ?_⟩, ?_, ?_⟩
  · have hidem : update (update st.holds path none) path (some o.blob) =
        update st.holds path (some o.blob) := update_idem _ _ _
    rw [hholds, ← hidem]
    exact (hcov'.vacant hfree not_mem_nil hlost).take path
  · intro q hq
    have hne : q ≠ path := fun heq => hq (heq ▸ hpath)
    rw [hafter.objects]
    exact update_of_ne hne _ _
  · intro q hq b hb
    apply hafter.files b
    rintro ⟨old, hobj, rfl, -, -, -, hone, -⟩
    have hheld : st.holds path = some old.blob := by
      rw [PblockExport.holds, hobj]
      rfl
    have hne : q = path := hsafe.covered.counted.unique hone hb hheld
    exact hq (hne ▸ hpath)
  · rw [hholds, update_self]
  · rw [hafter.unnamed o.blob hfresh.unnamed]
    exact hfresh.row

variable [DecidableEq D]

theorem sdPblockStagedCommit_idle
    (hbegins : io.begins = false) : (sdPblockStagedCommit io path o hash).stopAt n st = st := by
  apply stopAt_of_nil
  rw [sdPblockStagedCommit, cuts_bind, pblockStagedPut, hbegins]
  rfl

/-- What a staged commit stopped after `n` steps leaves, once recovered from: the
transaction taken back, or made and published as far as it got. -/
theorem sdPblockStagedCommit_recover (hidle : st.saved = none) (hbegins : io.begins = true) :
    ((sdPblockStagedCommit io path o hash).stopAt n st).recover =
      if n ≤ io.steps st path o then ((pblockStagedTx io path o).stopAt (n - 1) st.beginTx).recover
      else if (pblockStagedTx io path o st.beginTx).value && io.commits then
        ((pblockRefsDedupPublish io.fold path o hash).stopAt (n - (io.steps st path o + 1))
          (io.ends st path o)).recover
      else (io.ends st path o).recover := by
  have hlength : (pblockStagedPut io path o st).cuts.length = io.steps st path o + 1 := by
    rw [pblockStagedPut_eq hbegins, length_append, length_cons, length_singleton]
    rfl
  have hlast : (pblockStagedPut io path o st).last st = io.ends st path o := by
    rw [pblockStagedPut_eq hbegins]
    exact getLastD_concat ..
  have hvalue : (pblockStagedPut io path o st).value =
      ((pblockStagedTx io path o st.beginTx).value && io.commits) := by
    rw [pblockStagedPut_eq hbegins]
  rw [sdPblockStagedCommit, stopAt_bind, hlength, hlast, hvalue, pblockStagedPut_stopAt hbegins]
  by_cases hopen : n ≤ io.steps st path o
  · simp only [if_pos (Nat.le_succ_of_le hopen), if_pos hopen]
    by_cases hzero : n = 0
    · subst hzero
      have hbegin : InTx (fun _ => False) st st.beginTx :=
        ⟨rfl, fun _ _ => rfl, fun _ _ => rfl, fun _ _ => rfl⟩
      rw [if_pos rfl, stopAt_zero, PblockExport.recover_of_idle hidle,
        hbegin.recover_eq hidle fun _ => not_false]
    · rw [if_neg hzero]
  · have hzero : n ≠ 0 := by omega
    rw [if_neg hzero, if_neg hopen, if_neg hopen]
    cases hgo : (pblockStagedTx io path o st.beginTx).value && io.commits with
    | true =>
      change PblockExport.recover (if _ then _ else
        (pblockRefsDedupPublish io.fold path o hash >>= fun _ => pure true).stopAt _ _) = _
      rw [stopAt_bind_pure, if_pos rfl]
      split
      · next hle =>
        rw [Nat.sub_eq_zero_of_le hle, stopAt_zero]
      · rfl
    | false =>
      change PblockExport.recover (if _ then _ else (pure false : Proc _ Bool).stopAt _ _) = _
      rw [stopAt_pure, ite_self, if_neg Bool.false_ne_true]

/-- A staged commit, stopped after any step -/
theorem sdPblockStagedCommit_stopAt
    (hsafe : Safe st) (hpath : path ∈ own) (hfresh : Vacant st o.blob)
    (hclean : io.Clean st path o n) :
    Keeps own st ((sdPblockStagedCommit io path o hash).stopAt n st).recover := by
  cases hbegins : io.begins with
  | false =>
    rw [sdPblockStagedCommit_idle hbegins, PblockExport.recover_of_idle hsafe.idle]
    exact .refl hsafe
  | true =>
    rw [sdPblockStagedCommit_recover hsafe.idle hbegins]
    split
    · -- the transaction is open, or has not begun
      rw [pblockStagedTx_recover hsafe.idle]
      · exact .refl hsafe
      · intro old hobj hlooks hgates hunlinks
        obtain hle | ⟨-, hlt, -⟩ := hclean old hobj hbegins hlooks hgates hunlinks
        · omega
        · omega
    next hopen =>
    have hgone : ∀ old, st.objects path = some old → io.drop.looksUp = true →
        io.drop.gates = true → io.drop.release.Unlinks st old →
        io.Commits st path ∧ io.drop.release.Forgets st old := by
      intro old hobj hlooks hgates hunlinks
      obtain hle | ⟨hcommits, -, hforget⟩ := hclean old hobj hbegins hlooks hgates hunlinks
      · have hsteps := (pblockStagedTx_gone (o := o) hobj hlooks hgates hunlinks).1
        rw [CommitIo.steps] at hopen
        omega
      · exact ⟨hcommits, hforget⟩
    obtain ⟨hgo, hcommits, -⟩ | ⟨hno, hfails, hafter, -, -⟩ :=
      io.ends_spec st path o
    · have hforget : ∀ old, st.objects path = some old → io.drop.release.Forgets st old := by
        intro old hobj hunlinks
        exact (hgone old hobj hcommits.1.1 hcommits.1.2.1 hunlinks).2 hunlinks
      obtain ⟨hkeeps, hholds, hrow⟩ := CommitIo.ends_keeps hsafe hpath hfresh hforget hgo
      have hunrecorded : io.fold.own.Forgets (io.ends st path o) o := by
        apply ReleaseIo.Forgets.of_unrecorded
        rw [PblockExport.storedHash, hrow]
        rfl
      have hspec : wp (Keeps own st) (pblockRefsDedupPublish io.fold path o hash)
          (fun _ => Keeps own st) (io.ends st path o) :=
        pblockRefsDedupPublish_keeps hkeeps hpath (fun _ => hholds) fun _ _ _ => hunrecorded
      have hpublish := wp_stopAt hspec hkeeps (n - (io.steps st path o + 1))
      rw [if_pos hgo, PblockExport.recover_of_idle hpublish.safe.idle]
      exact hpublish
    · have hsame : io.ends st path o = st := by
        have hnone : ∀ c, ¬io.drop.Loses st path c := by
          rintro c ⟨old, hobj, -, hlooks, hgates, hunlinks⟩
          exact hfails (hgone old hobj hlooks hgates hunlinks).1
        exact CommitIo.ends_eq hsafe.idle hno hnone
      rw [if_neg (by simp [hno]), hsame, PblockExport.recover_of_idle hsafe.idle]
      exact .refl hsafe

end BrixCache
