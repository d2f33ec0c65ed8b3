import BrixCache.Pblock.StagedCommit

/-!
# Runs over shared blobs

The calls come one after the other, on any paths, and each may be stopped after any
of its steps, upon which the catalog is opened again and goes back to the last commit. A
release comes before the removal of the row that let go, in an unlink, in a
replacing rename and in a staged commit, whose transaction takes back the count but not
the block files; a run in which no call is stopped or fails in between keeps every
count and every byte.
-/

namespace BrixCache

open Proc Function List

variable {P B D : Type}

/-- The calls that touch reference counts -/
inductive RefsCall (P B D : Type) : Type where
  | create : CreateIo → P → B → ℕ+ → RefsCall P B D
  | stagedWrite : B → ℕ+ → List UInt8 → ℕ → RefsCall P B D
  /-- `sd_pblock_staged_abort` -/
  | stagedAbort : (ℕ → Bool) → PblockMeta B → RefsCall P B D
  | stagedCommit : CommitIo B → P → PblockMeta B → Option (ContentHash D) → RefsCall P B D
  | publish : FoldIo B → P → PblockMeta B → Option (ContentHash D) → RefsCall P B D
  | dedupExisting : FoldIo B → P → RefsCall P B D
  /-- an open that means to write, with `O_TRUNC` or not -/
  | openWrite : BreakIo → P → B → Bool → RefsCall P B D
  | unlink : DropIo → P → RefsCall P B D
  | rename : DropIo → Bool → Bool → P → P → RefsCall P B D
  | copy : CopyIo → P → P → RefsCall P B D

namespace RefsCall

def own : RefsCall P B D → List P
  | .create _ path _ _ => [path]
  | .stagedWrite _ _ _ _ => []
  | .stagedAbort _ _ => []
  | .stagedCommit _ path _ _ => [path]
  | .publish _ path _ _ => [path]
  | .dedupExisting _ path => [path]
  | .openWrite _ path _ _ => [path]
  | .unlink _ path => [path]
  | .rename _ _ _ src dst => [src, dst]
  | .copy _ _ dst => [dst]

/-- The ids are drawn at random, and a staged one is its handle's until it is
committed. -/
def Draws (st : PblockExport P B D) : RefsCall P B D → Prop
  | .create _ _ fresh _ => Vacant st fresh
  | .stagedWrite b _ _ _ => Vacant st b
  | .stagedAbort _ o => Vacant st o.blob
  | .stagedCommit _ _ o _ => Vacant st o.blob
  | .openWrite _ _ fresh _ => Vacant st fresh
  | _ => True

variable [DecidableEq P] [DecidableEq B] [DecidableEq D]

def proc (digest : List UInt8 → D) : RefsCall P B D → Proc (PblockExport P B D) Unit
  | .create io path fresh bs => (pblockOpenAbsent io path fresh bs).void
  | .stagedWrite b bs data off => sdPblockStagedWrite b bs data off
  | .stagedAbort unlinks o => refsRemove unlinks o
  | .stagedCommit io path o hash => (sdPblockStagedCommit io path o hash).void
  | .publish io path o hash => (pblockRefsDedupPublish io path o hash).void
  | .dedupExisting io path => (pblockRefsDedupExisting digest io path).void
  | .openWrite io path fresh trunc => (pblockPrepareExistingFd io path fresh trunc).void
  | .unlink io path => (sdPblockUnlink io path).void
  | .rename io moves noreplace src dst => (sdPblockRename io moves noreplace src dst).void
  | .copy io src dst => (pblockCopyCow io src dst).void

/-- The state a call stopped after `n` steps leaves, once the catalog is open again. -/
def exec (digest : List UInt8 → D) (st : PblockExport P B D) (call : RefsCall P B D) (n : ℕ) :
    PblockExport P B D :=
  ((call.proc digest).stopAt n st).recover

/-- A call stopped after `n` steps is clean: no removal, no replacing rename and no
staged commit stops or fails between its release and what removes the row; a close
publishes the blob its path's row names; and where a blob with a recorded hash is
unlinked, its row is deleted. -/
def Clean (st : PblockExport P B D) (n : ℕ) : RefsCall P B D → Prop
  | .stagedCommit io path o _ => io.Clean st path o n
  | .publish io path o hash =>
    (hash ≠ none → st.holds path = some o.blob) ∧
      ∀ h, hash = some h → io.Folds st o h → io.own.Forgets st o
  | .dedupExisting io path =>
    ∀ o h, st.objects path = some o → io.Folds st o h → io.own.Unlinks st o → io.own.drops = true
  | .unlink io path =>
    ∀ o, st.objects path = some o → io.looksUp = true → io.gates = true → io.Clean st o n
  | .rename io _ noreplace src dst =>
    ∀ o, st.objects dst = some o → (st.objects src).isSome = true → io.looksUp = true →
      io.gates = true → noreplace = false → io.Clean st o n
  | .copy io src dst =>
    ∀ o old, st.objects src = some o → st.objects dst = some old →
      io.old.Forgets (st.bump o.blob o.size o.bs) old
  | _ => True

/-- **One call**, stopped after any step, keeps the counts. -/
theorem exec_keeps (digest : List UInt8 → D) {st : PblockExport P B D} {call : RefsCall P B D}
    {n : ℕ} (hsafe : Safe st) (hdraws : call.Draws st) (hclean : call.Clean st n) :
    Keeps call.own st (call.exec digest st n) := by
  -- only a staged commit opens a transaction
  have hidle : Keeps call.own st ((call.proc digest).stopAt n st) →
      Keeps call.own st (call.exec digest st n) := by
    intro h
    rw [exec, PblockExport.recover_of_idle h.safe.idle]
    exact h
  have hrefl : Keeps call.own st st := .refl hsafe
  cases call with
  | create io path fresh bs =>
    apply hidle
    exact wp_stopAt (pblockOpenAbsent_keeps io bs hrefl mem_cons_self hdraws) hrefl n
  | stagedWrite b bs data off =>
    apply hidle
    exact wp_stopAt (sdPblockStagedWrite_keeps bs data off hrefl hdraws) hrefl n
  | stagedAbort unlinks o =>
    apply hidle
    exact wp_stopAt (refsRemove_keeps hrefl hdraws.unnamed hdraws.storedHash) hrefl n
  | stagedCommit io path o hash =>
    exact sdPblockStagedCommit_stopAt hsafe mem_cons_self hdraws hclean
  | publish io path o hash =>
    apply hidle
    exact wp_stopAt (pblockRefsDedupPublish_keeps hrefl mem_cons_self hclean.1 hclean.2)
      hrefl n
  | dedupExisting io path =>
    apply hidle
    exact wp_stopAt (pblockRefsDedupExisting_keeps digest hrefl mem_cons_self hclean) hrefl n
  | openWrite io path fresh trunc =>
    apply hidle
    exact wp_stopAt (pblockPrepareExistingFd_keeps io trunc hrefl mem_cons_self hdraws) hrefl n
  | unlink io path =>
    apply hidle
    exact sdPblockUnlink_stopAt hsafe mem_cons_self hclean
  | rename io moves noreplace src dst =>
    apply hidle
    exact sdPblockRename_stopAt hsafe mem_cons_self
      (mem_cons_of_mem src mem_cons_self) hclean
  | copy io src dst =>
    apply hidle
    exact wp_stopAt (pblockCopyCow_keeps io src dst hrefl mem_cons_self hclean) hrefl n

end RefsCall

/-! ## Runs -/

variable [DecidableEq P] [DecidableEq B] [DecidableEq D]

/-- One call, stopped after so many steps, and the reopening of the catalog. -/
def RefsStep (digest : List UInt8 → D) (st : PblockExport P B D) (c : RefsCall P B D × ℕ)
    (st' : PblockExport P B D) : Prop :=
  c.1.Draws st ∧ st' = c.1.exec digest st c.2

/-- An export before anything is shared: every row has its own blob, and no blob has a
tracking row. -/
structure PblockExport.Unshared (st : PblockExport P B D) : Prop where
  idle : st.saved = none
  blobs : ∀ b, st.blobs b = none
  lost : ∀ b, st.lost b = false
  own : ∀ p q b, st.holds p = some b → st.holds q = some b → p = q

omit [DecidableEq P] [DecidableEq D] in
theorem PblockExport.Unshared.safe {st : PblockExport P B D} (h : st.Unshared) : Safe st := by
  refine ⟨h.idle, ?_, fun _ b _ => h.lost b, nofun, ?_, fun b _ _ _ => h.lost b⟩
  · intro b S hS
    have hcard : S.card ≤ 1 := by
      apply Finset.card_le_one.mpr
      intro p hp q hq
      exact h.own p q b (hS p hp) (hS q hq)
    rw [PblockExport.refsCount_of_none (h.blobs b), count_nil]
    exact hcard
  · intro b r hr
    rw [h.blobs b] at hr
    cases hr

theorem RefsStep.keeps {digest : List UInt8 → D} {st st' : PblockExport P B D}
    {c : RefsCall P B D × ℕ} (hsafe : Safe st) (hstep : RefsStep digest st c st')
    (hclean : c.1.Clean st c.2) : Keeps c.1.own st st' := by
  obtain ⟨hdraws, rfl⟩ := hstep
  exact RefsCall.exec_keeps digest hsafe hdraws hclean

/-- **Counts and blocks over whole runs.** In every run of clean calls, each stopped
wherever it may be, a blob is counted for at least each of the rows that name it, no
block file of a named blob has been removed, and the next such call leaves the bytes
readable at the other paths as they are. -/
theorem refs_crash_safe {digest : List UInt8 → D} {st₀ st : PblockExport P B D}
    {calls : List (RefsCall P B D × ℕ)} (h₀ : st₀.Unshared)
    (h : Run (fun s c s' => RefsStep digest s c s' ∧ c.1.Clean s c.2) st₀ calls st) :
    (∀ b (S : Finset P), (∀ p ∈ S, st.holds p = some b) → S.card ≤ st.refsCount b) ∧
    (∀ p b, st.holds p = some b → st.lost b = false) ∧
    (∀ c st', RefsStep digest st c st' → c.1.Clean st c.2 →
      ∀ q ∉ c.1.own, st'.readPath q = st.readPath q) := by
  have hsafe : Safe st := by
    refine h.invariant (I := Safe) ?_ h₀.safe
    rintro s c s' hs ⟨hstep, hclean⟩
    exact (hstep.keeps hs hclean).safe
  refine ⟨?_, hsafe.covered.held, ?_⟩
  · intro b S hS
    have hcount := hsafe.covered.counted b S hS
    rwa [count_nil] at hcount
  · intro c st' hstep hclean q hq
    exact (hstep.keeps hsafe hclean).readPath hq

/-! ## Two names of one blob -/

/-- Nothing fails. -/
def smoothRelease : ReleaseIo := ⟨true, true, true, fun _ => true⟩

def smoothDrop : DropIo := ⟨true, true, smoothRelease, ⟨true, true⟩⟩

def smoothCopy : CopyIo := ⟨true, true, true, true, smoothRelease, smoothRelease⟩

attribute [local instance] neZero_four

/-- Path 0 names the blob 7, of one byte. -/
def oneFile : PblockExport ℕ ℕ ℕ where
  objects := update (fun _ => none) 0 (some ⟨7, 1, 4⟩)
  blobs _ := none
  saved := none
  files := update (fun _ _ => none) 7 (update (fun _ => none) 0 (some [1]))
  lost _ := false

theorem oneFile_unshared : oneFile.Unshared := by
  have hown : ∀ p b, oneFile.holds p = some b → p = 0 := by
    intro p b hp
    obtain ⟨row, hrow, -⟩ := Option.map_eq_some_iff.mp hp
    have hrow' : update (fun _ => none) 0 (some ⟨7, 1, 4⟩) p = some row := hrow
    obtain ⟨hzero, -⟩ | ⟨-, hnone⟩ := of_update_eq_some hrow'
    · exact hzero
    · cases hnone
  refine ⟨rfl, fun _ => rfl, fun _ => rfl, ?_⟩
  intro p q b hp hq
  rw [hown p b hp, hown q b hq]

/-- What a copy of path 0 to path 1 leaves, ... -/
def copied : PblockExport ℕ ℕ ℕ := (RefsCall.copy smoothCopy 0 1).exec length oneFile 9

/-- ... and an unlink of path 0 that is stopped once it has counted down. -/
def cutShort : PblockExport ℕ ℕ ℕ := (RefsCall.unlink smoothDrop 0).exec length copied 1

theorem refs_crash_safe_sample :
    (∀ b (S : Finset ℕ), (∀ p ∈ S, copied.holds p = some b) → S.card ≤ copied.refsCount b) ∧
    (∀ p b, copied.holds p = some b → copied.lost b = false) ∧
    (∀ c st', RefsStep length copied c st' → c.1.Clean copied c.2 →
      ∀ q ∉ c.1.own, st'.readPath q = copied.readPath q) := by
  have hclean : (RefsCall.copy smoothCopy 0 1 : RefsCall ℕ ℕ ℕ).Clean oneFile 9 := by
    intro o old _ hold
    cases hold
  have hstep : RefsStep length oneFile (.copy smoothCopy 0 1, 9) copied := ⟨trivial, rfl⟩
  exact refs_crash_safe oneFile_unshared (.one ⟨hstep, hclean⟩)

/-- A release stopped before the row is removed, and the next one takes the blocks of
the row that is left. -/
theorem cut_unlink_starves_sibling :
    ¬∀ (st₀ st : PblockExport ℕ ℕ ℕ) (calls : List (RefsCall ℕ ℕ ℕ × ℕ)), st₀.Unshared →
      Run (RefsStep length) st₀ calls st →
      (∀ b (S : Finset ℕ), (∀ p ∈ S, st.holds p = some b) → S.card ≤ st.refsCount b) ∧
      (∀ p b, st.holds p = some b → st.lost b = false) ∧
      (∀ c st', RefsStep length st c st' →
        ∀ q ∉ c.1.own, st'.readPath q = st.readPath q) := by
  intro h
  have hrun : Run (RefsStep length) oneFile
      [(.copy smoothCopy 0 1, 9), (.unlink smoothDrop 0, 1)] cutShort :=
    .cons ⟨trivial, rfl⟩ (.one ⟨trivial, rfl⟩)
  obtain ⟨-, -, hothers⟩ := h oneFile cutShort _ oneFile_unshared hrun
  have hsame := hothers (.unlink smoothDrop 1, 9) _ ⟨trivial, rfl⟩ 0 (by decide)
  revert hsame
  decide +kernel

end BrixCache
