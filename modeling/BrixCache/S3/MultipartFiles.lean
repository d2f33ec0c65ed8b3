import BrixCache.S3.Multipart

/-!
# What the descriptors of assemblies lead to

An assembly writes no part, and a part copy writes neither the temporary nor the object, in any
order of steps: files are parts or not, and a name of one kind never comes to lead to a file of
the other. So a step changes what is read at its own names only.
-/

namespace BrixCache

open Function

variable {fsPath : Bytes}

/-! ## What descriptors lead to -/

/-- Files are parts or not, by number, and descriptors lead where they were opened. -/
structure MpuKinds (fsPath : Bytes) (isPart : ℕ → Prop) (s : MpuState) : Prop where
  part : ∀ {id n ino}, n ≤ mpuMaxPartNumber → s.files.path (mpuPartPath fsPath id n) = some ino →
    isPart ino
  object : ∀ {ino}, s.files.path fsPath = some ino → ¬ isPart ino
  tmp : ∀ {ino}, s.files.path (mpuFinalTmp fsPath) = some ino → ¬ isPart ino
  run : ∀ {id a}, s.runs id = .assembling a → a.finalFd < s.files.next ∧ ¬ isPart a.finalFd
  copy : ∀ {call c}, s.copies call = some c → c.dstFd < s.files.next ∧ isPart c.dstFd ∧
    c.partNum ≤ mpuMaxPartNumber
  own : ∀ {call c id n}, s.copies call = some c → n ≤ mpuMaxPartNumber →
    s.files.path (mpuPartPath fsPath id n) = some c.dstFd → id = c.id ∧ n = c.partNum

/-- A state that descriptors and names are in order in -/
structure MpuWf (fsPath : Bytes) (s : MpuState) : Prop where
  sep : s.files.Separate
  kinds : ∃ isPart, MpuKinds fsPath isPart s

/-- The parts that a step may change -/
def MpuAct.Changes (s : MpuState) (id : UploadId) (n : ℕ) : MpuAct → Prop
  | .uploadPart id' n' _ | .copyOpen _ id' n' => id' = id ∧ n' = n
  | .copyWrite call _ | .copyFail call => ∃ c, s.copies call = some c ∧ c.id = id ∧ c.partNum = n
  | .remove id' _ => id' = id
  | _ => False

variable {n : ℕ} {act : MpuAct} {s s' : MpuState} {isPart : ℕ → Prop}

@[simp] theorem MpuRun.touched_fd {r : MpuRun} {a : MpuAssembly} (h : r.touched n = .assembling a) :
    ∃ a₀, r = .assembling a₀ ∧ a.finalFd = a₀.finalFd ∧ a.partNum = a₀.partNum ∧
      a.dstOff = a₀.dstOff := by
  cases r with
  | assembling a₀ =>
    simp only [MpuRun.touched] at h
    split at h <;> obtain rfl := MpuRun.assembling.inj h <;> exact ⟨a₀, rfl, rfl, rfl, rfl⟩
  | _ => cases h

/-! ## Steps by case -/

/-- One step of the files and the runs -/
inductive MpuTrans (fsPath : Bytes) (s : MpuState) : MpuAct → MpuState → Prop where
  | openTmp (id : UploadId) (hidle : s.runs id = .idle) :
      MpuTrans fsPath s (.openTmp id)
        { s with
          files := (s.files.openTrunc (mpuFinalTmp fsPath)).2
          runs := update s.runs id
            (.assembling ⟨(s.files.openTrunc (mpuFinalTmp fsPath)).1, 1, 0, false, false⟩) }
  | skipPart {id : UploadId} {a : MpuAssembly} (hrun : s.runs id = .assembling a)
      (hnum : a.partNum ≤ mpuMaxPartNumber) (hpart : s.part fsPath id a.partNum = none) :
      MpuTrans fsPath s (.copyPart id)
        { s with
          runs := update s.runs id (.assembling { a with partNum := a.partNum + 1 }) }
  | copyPart {id : UploadId} {a : MpuAssembly} {bytes : Bytes}
      (hrun : s.runs id = .assembling a) (hnum : a.partNum ≤ mpuMaxPartNumber)
      (hpart : s.part fsPath id a.partNum = some bytes) :
      MpuTrans fsPath s (.copyPart id)
        { s with
          files := s.files.write a.finalFd
            (File.pwrite 0 (s.files.data a.finalFd) a.dstOff bytes)
          runs := update s.runs id
            (.assembling { a with partNum := a.partNum + 1, dstOff := a.dstOff + bytes.length }) }
  | fail {id : UploadId} {a : MpuAssembly} (hrun : s.runs id = .assembling a) :
      MpuTrans fsPath s (.fail id)
        { s with
          files := s.files.unlink (mpuFinalTmp fsPath)
          runs := update s.runs id .failed }
  | rename {id : UploadId} {a : MpuAssembly} (hrun : s.runs id = .assembling a)
      (hall : mpuMaxPartNumber < a.partNum) :
      MpuTrans fsPath s (.rename id)
        { s with
          files := s.files.rename (mpuFinalTmp fsPath) fsPath
          runs := update s.runs id (.committed a.torn) }
  | remove {id : UploadId} {name : Bytes} {torn : Bool} (hrun : s.runs id = .committed torn)
      (hdir : s3GetMpuDir fsPath id ++ [47] <+: name) :
      MpuTrans fsPath s (.remove id name) { s with files := s.files.unlink name }
  | finish {id : UploadId} {torn : Bool} (hrun : s.runs id = .committed torn) :
      MpuTrans fsPath s (.finish id) { s with runs := update s.runs id (.ok torn) }
  | uploadPart {id : UploadId} {n : ℕ} {bytes : Bytes} (hn : n ≤ mpuMaxPartNumber) :
      MpuTrans fsPath s (.uploadPart id n bytes)
        { s with
          files := s.files.put (mpuPartPath fsPath id n) bytes
          runs := s.touch id n }
  | copyOpen {call : ℕ} {id : UploadId} {n : ℕ} (hn : n ≤ mpuMaxPartNumber) :
      MpuTrans fsPath s (.copyOpen call id n)
        { files := (s.files.openTrunc (mpuPartPath fsPath id n)).2
          runs := s.touch id n
          copies := update s.copies call
            (some ⟨id, n, (s.files.openTrunc (mpuPartPath fsPath id n)).1, 0⟩) }
  | copyWrite {call : ℕ} {bytes : Bytes} {c : PartCopy} (hcopy : s.copies call = some c) :
      MpuTrans fsPath s (.copyWrite call bytes)
        { files := s.files.write c.dstFd (File.pwrite 0 (s.files.data c.dstFd) c.dstOff bytes)
          runs := s.touch c.id c.partNum
          copies := update s.copies call
            (some { c with dstOff := c.dstOff + bytes.length }) }
  | copyClose (call : ℕ) :
      MpuTrans fsPath s (.copyClose call)
        { s with copies := update s.copies call none }
  | copyFail {call : ℕ} {c : PartCopy} (hcopy : s.copies call = some c) :
      MpuTrans fsPath s (.copyFail call)
        { files := s.files.unlink (mpuPartPath fsPath c.id c.partNum)
          runs := s.touch c.id c.partNum
          copies := update s.copies call none }

/-- What a step can do, said once -/
theorem mpuStep_cases (h : mpuStep fsPath s act = some s') :
    MpuTrans fsPath s act s' := by
  cases act with
  | openTmp id =>
    simp only [mpuStep] at h
    split at h
    · next hidle =>
      cases h
      exact .openTmp id hidle
    · cases h
  | copyPart id =>
    simp only [mpuStep] at h
    split at h
    · next a hrun =>
      split at h
      · next hnum =>
        cases h
        unfold MpuState.copyPart
        split
        · next hpart => exact .skipPart hrun hnum hpart
        · next bytes hpart => exact .copyPart hrun hnum hpart
      · cases h
    · cases h
  | fail id =>
    simp only [mpuStep] at h
    split at h
    · next a hrun =>
      cases h
      exact .fail hrun
    · cases h
  | rename id =>
    simp only [mpuStep] at h
    split at h
    · next a hrun =>
      split at h
      · next hready =>
        cases h
        exact .rename hrun hready.1
      · cases h
    · cases h
  | remove id name =>
    simp only [mpuStep] at h
    split at h
    · next torn hrun =>
      split at h
      · next hdir =>
        cases h
        exact .remove hrun hdir
      · cases h
    · cases h
  | finish id =>
    simp only [mpuStep] at h
    split at h
    · next torn hrun =>
      cases h
      exact .finish hrun
    · cases h
  | uploadPart id n bytes =>
    simp only [mpuStep] at h
    split at h
    · next hn =>
      cases h
      exact .uploadPart hn.2
    · cases h
  | copyOpen call id n =>
    simp only [mpuStep] at h
    split at h
    · next hn =>
      cases h
      exact .copyOpen hn.1.2
    · cases h
  | copyWrite call bytes =>
    simp only [mpuStep] at h
    split at h
    · next c hcopy =>
      cases h
      exact .copyWrite hcopy
    · cases h
  | copyClose call =>
    cases h
    exact .copyClose call
  | copyFail call =>
    simp only [mpuStep] at h
    split at h
    · next c hcopy =>
      cases h
      exact .copyFail hcopy
    · cases h

/-! ## Descriptors stay in order -/

theorem MpuState.touch_assembling {id id' : UploadId} {a : MpuAssembly}
    (h : s.touch id n id' = .assembling a) :
    ∃ a₀, s.runs id' = .assembling a₀ ∧ a.finalFd = a₀.finalFd := by
  rcases of_update_eq h with ⟨rfl, h⟩ | ⟨-, h⟩
  · obtain ⟨a₀, hr, hfd, -⟩ := MpuRun.touched_fd h
    exact ⟨a₀, hr, hfd⟩
  · exact ⟨a, h, rfl⟩

theorem MpuKinds.fresh (h : MpuKinds fsPath isPart s) (hsep : s.files.Separate) (p : Prop) :
    MpuKinds fsPath (update isPart s.files.next p) s := by
  have hkeep : ∀ {ino}, ino < s.files.next →
      update isPart s.files.next p ino = isPart ino :=
    fun hlt => update_of_ne (Nat.ne_of_lt hlt) _ _
  refine ⟨?_, ?_, ?_, ?_, ?_, h.own⟩
  · intro id n ino hn hpath
    rw [hkeep (hsep.fresh hpath)]
    exact h.part hn hpath
  · intro ino hpath
    rw [hkeep (hsep.fresh hpath)]
    exact h.object hpath
  · intro ino hpath
    rw [hkeep (hsep.fresh hpath)]
    exact h.tmp hpath
  · intro id a hrun
    rw [hkeep (h.run hrun).1]
    exact h.run hrun
  · intro call c hcopy
    rw [hkeep (h.copy hcopy).1]
    exact h.copy hcopy

/-- A step keeps the kinds when new names are the next file's, or the object's for what was the
temporary, and new descriptors are of their kind. -/
theorem MpuKinds.step (hfit : MpuFits fsPath)
    (h : MpuKinds fsPath isPart s) (hsep' : s'.files.Separate)
    (hnext : s.files.next ≤ s'.files.next)
    (hpaths : ∀ k ino, s'.files.path k = some ino → s.files.path k = some ino ∨
      (k = fsPath ∧ s.files.path (mpuFinalTmp fsPath) = some ino) ∨
      (ino = s.files.next ∧ ((k = mpuFinalTmp fsPath ∧ ¬ isPart ino) ∨
        ∃ id n, n ≤ mpuMaxPartNumber ∧ k = mpuPartPath fsPath id n ∧ isPart ino)))
    (hruns : ∀ id a, s'.runs id = .assembling a →
      (∃ id₀ a₀, s.runs id₀ = .assembling a₀ ∧ a.finalFd = a₀.finalFd) ∨
      (a.finalFd < s'.files.next ∧ ¬ isPart a.finalFd))
    (hcopies : ∀ call c, s'.copies call = some c →
      (∃ c₀, s.copies call = some c₀ ∧ c.dstFd = c₀.dstFd ∧ c.id = c₀.id ∧
        c.partNum = c₀.partNum) ∨
      (c.dstFd < s'.files.next ∧ isPart c.dstFd ∧ c.partNum ≤ mpuMaxPartNumber ∧
        s'.files.path (mpuPartPath fsPath c.id c.partNum) = some c.dstFd)) :
    MpuKinds fsPath isPart s' := by
  refine ⟨?_, ?_, ?_, ?_, ?_, ?_⟩
  · intro id n ino hn hpath
    rcases hpaths _ _ hpath with hold | ⟨hk, -⟩ | ⟨-, ⟨hk, -⟩ | ⟨-, -, -, -, hpart⟩⟩
    · exact h.part hn hold
    · exact absurd hk (mpuPartPath_ne_object hfit id hn)
    · exact absurd hk (mpuPartPath_ne_tmp hfit id hn)
    · exact hpart
  · intro ino hpath
    rcases hpaths _ _ hpath with hold | ⟨-, htmp⟩ | ⟨-, ⟨hk, -⟩ | ⟨id, n, hn, hk, -⟩⟩
    · exact h.object hold
    · exact h.tmp htmp
    · exact absurd hk.symm (mpuFinalTmp_ne hfit)
    · exact absurd hk.symm (mpuPartPath_ne_object hfit id hn)
  · intro ino hpath
    rcases hpaths _ _ hpath with hold | ⟨-, htmp⟩ | ⟨-, ⟨-, hnot⟩ | ⟨id, n, hn, hk, -⟩⟩
    · exact h.tmp hold
    · exact h.tmp htmp
    · exact hnot
    · exact absurd hk.symm (mpuPartPath_ne_tmp hfit id hn)
  · intro id a hrun
    rcases hruns id a hrun with ⟨id₀, a₀, hold, hfd⟩ | hnew
    · rw [hfd]
      exact ⟨Nat.lt_of_lt_of_le (h.run hold).1 hnext, (h.run hold).2⟩
    · exact hnew
  · intro call c hcopy
    rcases hcopies call c hcopy with ⟨c₀, hold, hfd, -, hnum⟩ | ⟨hlt, hpart, hn, -⟩
    · rw [hfd, hnum]
      exact ⟨Nat.lt_of_lt_of_le (h.copy hold).1 hnext, (h.copy hold).2⟩
    · exact ⟨hlt, hpart, hn⟩
  · intro call c id n hcopy hn hpath
    rcases hcopies call c hcopy with ⟨c₀, hold, hfd, hid, hnum⟩ | ⟨-, -, hn', hown⟩
    · rw [hfd] at hpath
      rw [hid, hnum]
      rcases hpaths _ _ hpath with hsame | ⟨hk, -⟩ | ⟨hnew, -⟩
      · exact h.own hold hn hsame
      · exact absurd hk (mpuPartPath_ne_object hfit id hn)
      · exact absurd hnew (Nat.ne_of_lt (h.copy hold).1)
    · exact mpuPartPath_inj hfit hn hn' (hsep'.inj hpath hown)

theorem MpuKinds.opened (h : MpuKinds fsPath isPart s)
    (hsep : s.files.Separate) {k : Bytes} {p : Prop}
    (hp : ∀ ino, s.files.path k = some ino → (isPart ino ↔ p)) :
    ∃ isPart', MpuKinds fsPath isPart' s ∧ (isPart' (s.files.openTrunc k).1 ↔ p) ∧
      ∀ k' ino, (s.files.openTrunc k).2.path k' = some ino →
        s.files.path k' = some ino ∨ (k' = k ∧ ino = s.files.next ∧ (isPart' ino ↔ p)) := by
  have ho := s.files.openTrunc_opened k
  rcases ho.fd with hk | hnext
  · refine ⟨isPart, h, hp _ hk, fun k' ino hpath => .inl ?_⟩
    by_cases hne : k' = k
    · subst hne
      obtain rfl := Option.some.inj (ho.path.symm.trans hpath)
      exact hk
    · rwa [ho.others k' hne] at hpath
  · have hself : update isPart s.files.next p s.files.next ↔ p := by
      rw [update_self]
    refine ⟨_, h.fresh hsep p, by rwa [hnext], fun k' ino hpath => ?_⟩
    by_cases hne : k' = k
    · subst hne
      obtain rfl := Option.some.inj (ho.path.symm.trans hpath)
      exact .inr ⟨rfl, hnext, by rwa [hnext]⟩
    · exact .inl (by rwa [ho.others k' hne] at hpath)

/-- A step keeps the files in order. -/
theorem MpuWf.step (hfit : MpuFits fsPath) (h : MpuWf fsPath s)
    (hstep : mpuStep fsPath s act = some s') : MpuWf fsPath s' := by
  obtain ⟨hsep, isPart, hkinds⟩ := h
  have hcopySame : ∀ call c, s.copies call = some c →
      (∃ c₀, s.copies call = some c₀ ∧ c.dstFd = c₀.dstFd ∧ c.id = c₀.id ∧
        c.partNum = c₀.partNum) :=
    fun call c hcopy => ⟨c, hcopy, rfl, rfl, rfl⟩
  have htouch : ∀ {id n} id' a, s.touch id n id' = .assembling a →
      ∃ id₀ a₀, s.runs id₀ = .assembling a₀ ∧ a.finalFd = a₀.finalFd := by
    intro id n id' a hrun
    obtain ⟨a₀, hold, hfd⟩ := s.touch_assembling hrun
    exact ⟨id', a₀, hold, hfd⟩
  cases mpuStep_cases hstep with
  | openTmp id hidle =>
    obtain ⟨isPart', hkinds', hfd, hpaths⟩ := hkinds.opened hsep (k := mpuFinalTmp fsPath)
      (p := False) (fun ino hpath => iff_false_intro (hkinds.tmp hpath))
    refine ⟨hsep.openTrunc _, isPart', hkinds'.step hfit (hsep.openTrunc _)
      (s.files.openTrunc_opened _).next ?_ ?_ fun call c hcopy => .inl (hcopySame call c hcopy)⟩
    · intro k ino hpath
      rcases hpaths k ino hpath with hold | ⟨hk, hino, hnot⟩
      · exact .inl hold
      · exact .inr (.inr ⟨hino, .inl ⟨hk, hnot.mp⟩⟩)
    · intro id' a hrun
      rcases of_update_eq hrun with ⟨-, hnew⟩ | ⟨-, hold⟩
      · obtain rfl := MpuRun.assembling.inj hnew
        exact .inr ⟨Inodes.fd_lt_next hsep _, hfd.mp⟩
      · exact .inl ⟨id', a, hold, rfl⟩
  | skipPart hrun hnum hpart =>
    refine ⟨hsep, isPart, hkinds.step hfit hsep (Nat.le_refl _) (fun k ino hpath => .inl hpath) ?_
      fun call c hcopy => .inl (hcopySame call c hcopy)⟩
    intro id' a' hrun'
    rcases of_update_eq hrun' with ⟨-, hnew⟩ | ⟨-, hold⟩
    · obtain rfl := MpuRun.assembling.inj hnew
      exact .inl ⟨_, _, hrun, rfl⟩
    · exact .inl ⟨id', a', hold, rfl⟩
  | copyPart hrun hnum hpart =>
    refine ⟨hsep.write _ _, isPart, hkinds.step hfit (hsep.write _ _) (Nat.le_refl _)
      (fun k ino hpath => .inl hpath) ?_ fun call c hcopy => .inl (hcopySame call c hcopy)⟩
    intro id' a' hrun'
    rcases of_update_eq hrun' with ⟨-, hnew⟩ | ⟨-, hold⟩
    · obtain rfl := MpuRun.assembling.inj hnew
      exact .inl ⟨_, _, hrun, rfl⟩
    · exact .inl ⟨id', a', hold, rfl⟩
  | fail hrun =>
    refine ⟨hsep.unlink _, isPart, hkinds.step hfit (hsep.unlink _) (Nat.le_refl _) ?_ ?_
      fun call c hcopy => .inl (hcopySame call c hcopy)⟩
    · intro k ino hpath
      rcases of_update_eq_some hpath with ⟨-, hnone⟩ | ⟨-, hold⟩
      · cases hnone
      · exact .inl hold
    · intro id' a' hrun'
      rcases of_update_eq hrun' with ⟨-, hnew⟩ | ⟨-, hold⟩
      · cases hnew
      · exact .inl ⟨id', a', hold, rfl⟩
  | rename hrun hall =>
    refine ⟨hsep.rename _ _, isPart, hkinds.step hfit (hsep.rename _ _) (Nat.le_refl _) ?_ ?_
      fun call c hcopy => .inl (hcopySame call c hcopy)⟩
    · intro k ino hpath
      rcases Inodes.path_rename hpath with ⟨hk, htmp⟩ | ⟨-, -, hold⟩
      · exact .inr (.inl ⟨hk, htmp⟩)
      · exact .inl hold
    · intro id' a' hrun'
      rcases of_update_eq hrun' with ⟨-, hnew⟩ | ⟨-, hold⟩
      · cases hnew
      · exact .inl ⟨id', a', hold, rfl⟩
  | remove hrun hdir =>
    refine ⟨hsep.unlink _, isPart, hkinds.step hfit (hsep.unlink _) (Nat.le_refl _) ?_
      (fun id' a' hrun' => .inl ⟨id', a', hrun', rfl⟩)
      fun call c hcopy => .inl (hcopySame call c hcopy)⟩
    intro k ino hpath
    rcases of_update_eq_some hpath with ⟨-, hnone⟩ | ⟨-, hold⟩
    · cases hnone
    · exact .inl hold
  | finish hrun =>
    refine ⟨hsep, isPart, hkinds.step hfit hsep (Nat.le_refl _) (fun k ino hpath => .inl hpath) ?_
      fun call c hcopy => .inl (hcopySame call c hcopy)⟩
    intro id' a' hrun'
    rcases of_update_eq hrun' with ⟨-, hnew⟩ | ⟨-, hold⟩
    · cases hnew
    · exact .inl ⟨id', a', hold, rfl⟩
  | @uploadPart id n bytes hn =>
    refine ⟨hsep.put _ _, _, (hkinds.fresh hsep True).step hfit (hsep.put _ _) (Nat.le_succ _) ?_
      (fun id' a' hrun' => .inl (htouch id' a' hrun'))
      fun call c hcopy => .inl (hcopySame call c hcopy)⟩
    intro k ino hpath
    rcases of_update_eq_some hpath with ⟨hk, hnew⟩ | ⟨-, hold⟩
    · cases hnew
      refine .inr (.inr ⟨rfl, .inr ⟨id, n, hn, hk, ?_⟩⟩)
      rw [update_self]
      trivial
    · exact .inl hold
  | @copyOpen call id n hn =>
    obtain ⟨isPart', hkinds', hfd, hpaths⟩ := hkinds.opened hsep (k := mpuPartPath fsPath id n)
      (p := True) (fun ino hpath => iff_true_intro (hkinds.part hn hpath))
    refine ⟨hsep.openTrunc _, isPart', hkinds'.step hfit (hsep.openTrunc _)
      (s.files.openTrunc_opened _).next ?_ (fun id' a' hrun' => .inl (htouch id' a' hrun')) ?_⟩
    · intro k ino hpath
      rcases hpaths k ino hpath with hold | ⟨hk, hino, hyes⟩
      · exact .inl hold
      · exact .inr (.inr ⟨hino, .inr ⟨id, n, hn, hk, hyes.mpr trivial⟩⟩)
    · intro call' c hcopy
      rcases of_update_eq_some hcopy with ⟨-, hnew⟩ | ⟨-, hold⟩
      · cases hnew
        exact .inr ⟨Inodes.fd_lt_next hsep _, hfd.mpr trivial, hn,
          (s.files.openTrunc_opened _).path⟩
      · exact .inl ⟨c, hold, rfl, rfl, rfl⟩
  | @copyWrite call bytes c hcopy =>
    refine ⟨hsep.write _ _, isPart, hkinds.step hfit (hsep.write _ _) (Nat.le_refl _)
      (fun k ino hpath => .inl hpath) (fun id' a' hrun' => .inl (htouch id' a' hrun')) ?_⟩
    intro call' c' hcopy'
    rcases of_update_eq_some hcopy' with ⟨rfl, hnew⟩ | ⟨-, hold⟩
    · cases hnew
      exact .inl ⟨c, hcopy, rfl, rfl, rfl⟩
    · exact .inl ⟨c', hold, rfl, rfl, rfl⟩
  | copyClose call =>
    refine ⟨hsep, isPart, hkinds.step hfit hsep (Nat.le_refl _) (fun k ino hpath => .inl hpath)
      (fun id' a' hrun' => .inl ⟨id', a', hrun', rfl⟩) ?_⟩
    intro call' c hcopy
    rcases of_update_eq_some hcopy with ⟨-, hnone⟩ | ⟨-, hold⟩
    · cases hnone
    · exact .inl ⟨c, hold, rfl, rfl, rfl⟩
  | copyFail hcopy =>
    refine ⟨hsep.unlink _, isPart, hkinds.step hfit (hsep.unlink _) (Nat.le_refl _) ?_
      (fun id' a' hrun' => .inl (htouch id' a' hrun')) ?_⟩
    · intro k ino hpath
      rcases of_update_eq_some hpath with ⟨-, hnone⟩ | ⟨-, hold⟩
      · cases hnone
      · exact .inl hold
    · intro call' c' hcopy'
      rcases of_update_eq_some hcopy' with ⟨-, hnone⟩ | ⟨-, hold⟩
      · cases hnone
      · exact .inl ⟨c', hold, rfl, rfl, rfl⟩

/-! ## What a step leaves as it is -/

/-- A step leaves a part as it is, unless it changes that one. -/
theorem mpuStep_part (hfit : MpuFits fsPath)
    (h : MpuWf fsPath s) (hstep : mpuStep fsPath s act = some s') {id : UploadId}
    (hn : n ≤ mpuMaxPartNumber) (hnot : ¬ act.Changes s id n) :
    s'.part fsPath id n = s.part fsPath id n := by
  obtain ⟨hsep, isPart, hkinds⟩ := h
  have hother : ∀ {id' n'}, n' ≤ mpuMaxPartNumber → ¬ (id' = id ∧ n' = n) →
      mpuPartPath fsPath id n ≠ mpuPartPath fsPath id' n' := by
    intro id' n' hn' hne heq
    obtain ⟨rfl, rfl⟩ := mpuPartPath_inj hfit hn hn' heq
    exact hne ⟨rfl, rfl⟩
  cases mpuStep_cases hstep with
  | openTmp id' hidle =>
    exact (s.files.openTrunc_opened _).read_of_ne hsep (mpuPartPath_ne_tmp hfit id hn)
  | skipPart | finish | copyClose => rfl
  | copyPart hrun hnum hpart =>
    exact Inodes.read_write_of_ne
      (fun hpath => (hkinds.run hrun).2 (hkinds.part hn hpath)) _
  | fail hrun => exact Inodes.read_unlink_of_ne (mpuPartPath_ne_tmp hfit id hn) _
  | rename hrun hall =>
    exact Inodes.read_rename_of_ne (mpuPartPath_ne_tmp hfit id hn)
      (mpuPartPath_ne_object hfit id hn) _
  | remove hrun hdir =>
    refine Inodes.read_unlink_of_ne ?_ _
    rintro rfl
    exact hnot (mpuDir_prefix_part_eq hfit hn hdir)
  | uploadPart hn' => exact Inodes.read_put_of_ne hsep (hother hn' hnot) _
  | copyOpen hn' => exact (s.files.openTrunc_opened _).read_of_ne hsep (hother hn' hnot)
  | copyWrite hcopy =>
    refine Inodes.read_write_of_ne (fun hpath => hnot ?_) _
    obtain ⟨rfl, rfl⟩ := hkinds.own hcopy hn hpath
    exact ⟨_, hcopy, rfl, rfl⟩
  | copyFail hcopy =>
    refine Inodes.read_unlink_of_ne (hother (hkinds.copy hcopy).2.2 ?_) _
    rintro ⟨rfl, rfl⟩
    exact hnot ⟨_, hcopy, rfl, rfl⟩

/-- A step of an assembly up to its rename -/
def MpuAct.Assembles : MpuAct → Prop
  | .openTmp _ | .copyPart _ | .fail _ | .rename _ => True
  | _ => False

/-- A step that assembles nothing leaves the object and the temporary file. -/
theorem mpuStep_beside (hfit : MpuFits fsPath)
    (h : MpuWf fsPath s) (hstep : mpuStep fsPath s act = some s') (hact : ¬ act.Assembles)
    {k : Bytes} (hk : k = fsPath ∨ k = mpuFinalTmp fsPath) :
    s'.files.path k = s.files.path k ∧ s'.files.read k = s.files.read k := by
  obtain ⟨hsep, isPart, hkinds⟩ := h
  have hpart : ∀ {id n}, n ≤ mpuMaxPartNumber → k ≠ mpuPartPath fsPath id n := by
    rintro id n hn rfl
    rcases hk with hk | hk
    · exact mpuPartPath_ne_object hfit id hn hk
    · exact mpuPartPath_ne_tmp hfit id hn hk
  have hnot : ∀ {ino}, isPart ino → s.files.path k ≠ some ino := by
    rcases hk with rfl | rfl
    · exact fun hyes hpath => hkinds.object hpath hyes
    · exact fun hyes hpath => hkinds.tmp hpath hyes
  cases mpuStep_cases hstep with
  | openTmp | skipPart | copyPart | fail | rename => exact absurd trivial hact
  | @remove id name torn hrun hdir =>
    have hne : k ≠ name := by
      rintro rfl
      rcases hk with rfl | rfl
      · exact mpuDir_not_prefix_object hfit id hdir
      · exact mpuDir_not_prefix_tmp hfit id hdir
    exact ⟨Inodes.path_unlink_of_ne hne _, Inodes.read_unlink_of_ne hne _⟩
  | finish | copyClose => exact ⟨rfl, rfl⟩
  | uploadPart hn =>
    exact ⟨Inodes.path_put_of_ne (hpart hn) _ _, Inodes.read_put_of_ne hsep (hpart hn) _⟩
  | @copyOpen call id n hn =>
    have ho := s.files.openTrunc_opened (mpuPartPath fsPath id n)
    exact ⟨ho.others k (hpart hn), ho.read_of_ne hsep (hpart hn)⟩
  | copyWrite hcopy => exact ⟨rfl, Inodes.read_write_of_ne (hnot (hkinds.copy hcopy).2.1) _⟩
  | @copyFail call c hcopy =>
    have hne : k ≠ mpuPartPath fsPath c.id c.partNum := hpart (hkinds.copy hcopy).2.2
    exact ⟨Inodes.path_unlink_of_ne hne _, Inodes.read_unlink_of_ne hne _⟩

end BrixCache
