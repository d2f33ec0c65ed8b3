import BrixCache.S3.MultipartFiles

/-!
# Assemblies that run at once

What an assembly has copied is in the temporary as long as no other opens it, truncating, in
between. Then its rename puts the parts of its own upload on the object.
-/

namespace BrixCache

open Function List

variable {fsPath : Bytes}

/-! ## What an assembly has copied -/

/-- The first parts, one after the other -/
def joined (pieces : ℕ → Option Bytes) (k : ℕ) : Bytes :=
  (range k).flatMap fun i => (pieces (i + 1)).getD []

@[simp] theorem joined_zero (pieces : ℕ → Option Bytes) : joined pieces 0 = [] := rfl

theorem joined_succ (pieces : ℕ → Option Bytes) (k : ℕ) :
    joined pieces (k + 1) = joined pieces k ++ (pieces (k + 1)).getD [] := by
  simp [joined, range_succ]

theorem joined_congr {pieces pieces' : ℕ → Option Bytes} {k : ℕ}
    (h : ∀ n, 1 ≤ n → n ≤ k → pieces n = pieces' n) : joined pieces k = joined pieces' k := by
  induction k with
  | zero => rfl
  | succ k ih =>
    rw [joined_succ, joined_succ, ih fun n h₁ h₂ => h n h₁ (Nat.le_succ_of_le h₂),
      h (k + 1) (Nat.succ_pos k) (Nat.le_refl _)]

/-- A run that copies parts -/
def MpuState.Assembling (s : MpuState) (id : UploadId) : Prop := ∃ a, s.runs id = .assembling a

/-- No part copy has the part's file open. -/
def MpuState.Settled (fsPath : Bytes) (s : MpuState) (id : UploadId) (n : ℕ) : Prop :=
  ∀ call c, s.copies call = some c → s.files.path (mpuPartPath fsPath id n) ≠ some c.dstFd

/-- Each piece is what its part was, with no part copy writing it, at some moment of the
assembly. -/
def PieceWise (fsPath : Bytes) (V : MpuState → Prop) (id : UploadId) (k : ℕ)
    (pieces : ℕ → Option Bytes) : Prop :=
  ∀ n, 1 ≤ n → n ≤ k →
    ∃ m, V m ∧ m.Assembling id ∧ m.part fsPath id n = pieces n ∧ m.Settled fsPath id n

/-- What an assembly has put on the object: at some moment the object was the parts of the upload
in order, each as it was at some moment of the assembly, and all as they were at one moment if no
part that was still to be copied changed after one that was copied. -/
structure MpuPublished (fsPath : Bytes) (V : MpuState → Prop) (id : UploadId) (torn : Bool)
    (bytes : Bytes) : Prop where
  visible : ∃ m, V m ∧ m.runs id = .committed torn ∧ m.object fsPath = some bytes
  joins : ∃ pieces, bytes = joined pieces mpuMaxPartNumber ∧
    PieceWise fsPath V id mpuMaxPartNumber pieces ∧
    (torn = false → ∃ m, V m ∧ m.Assembling id ∧
      ∀ n, 1 ≤ n → n ≤ mpuMaxPartNumber → m.part fsPath id n = pieces n)

/-- What an assembly in its loop has copied, and what of it the parts still are -/
structure MpuCopied (fsPath : Bytes) (V : MpuState → Prop) (s : MpuState) (id : UploadId)
    (a : MpuAssembly) (k : ℕ) (pieces : ℕ → Option Bytes) : Prop where
  num : a.partNum = k + 1
  le : k ≤ mpuMaxPartNumber
  tmp : s.files.path (mpuFinalTmp fsPath) = some a.finalFd
  content : s.files.read (mpuFinalTmp fsPath) = some (joined pieces k)
  off : a.dstOff = (joined pieces k).length
  piecewise : PieceWise fsPath V id k pieces
  same : a.behind = false → ∀ n, 1 ≤ n → n ≤ k → s.part fsPath id n = pieces n
  moment : a.torn = false → ∃ m, V m ∧ m.Assembling id ∧
    (∀ n, 1 ≤ n → n ≤ k → m.part fsPath id n = pieces n) ∧
    ∀ n, k < n → n ≤ mpuMaxPartNumber → m.part fsPath id n = s.part fsPath id n

/-- A step that mixes no assemblies: none is in progress when another opens the temporary, and no
part copy writes the part that is copied. -/
def MpuAct.Clean (fsPath : Bytes) (s : MpuState) : MpuAct → Prop
  | .openTmp _ => ∀ id, ¬ s.Assembling id
  | .copyPart id => ∀ a, s.runs id = .assembling a → s.Settled fsPath id a.partNum
  | _ => True

/-- What holds in a state reached through such steps, with the states before it -/
structure MpuInv (fsPath : Bytes) (before : Option Bytes) (V : MpuState → Prop)
    (s : MpuState) : Prop where
  wf : MpuWf fsPath s
  one : ∀ {id id'}, s.Assembling id → s.Assembling id' → id = id'
  copied : ∀ {id a}, s.runs id = .assembling a → ∃ k pieces, MpuCopied fsPath V s id a k pieces
  done : ∀ {id torn}, s.runs id = .committed torn ∨ s.runs id = .ok torn →
    ∃ bytes, MpuPublished fsPath V id torn bytes
  object : s.object fsPath = before ∨
    ∃ id torn bytes, s.object fsPath = some bytes ∧ MpuPublished fsPath V id torn bytes

section

variable {V : MpuState → Prop} {s s' : MpuState}

variable {id : UploadId} {k : ℕ} {pieces : ℕ → Option Bytes} {a : MpuAssembly} {act : MpuAct}
  {before : Option Bytes}

theorem PieceWise.mono {V' : MpuState → Prop} (hsub : ∀ m, V m → V' m)
    (h : PieceWise fsPath V id k pieces) :
    PieceWise fsPath V' id k pieces := by
  intro n h₁ h₂
  obtain ⟨m, hm, hrest⟩ := h n h₁ h₂
  exact ⟨m, hsub m hm, hrest⟩

theorem MpuPublished.mono {V' : MpuState → Prop} (hsub : ∀ m, V m → V' m)
    {torn : Bool} {bytes : Bytes} (h : MpuPublished fsPath V id torn bytes) :
    MpuPublished fsPath V' id torn bytes := by
  obtain ⟨⟨m, hm, hvisible⟩, pieces, hbytes, hpieces, hmoment⟩ := h
  refine ⟨⟨m, hsub m hm, hvisible⟩, pieces, hbytes, hpieces.mono hsub, fun htorn => ?_⟩
  obtain ⟨m', hm', hrest⟩ := hmoment htorn
  exact ⟨m', hsub m' hm', hrest⟩

/-! ### Steps of others -/

/-- A run that assembles goes on, whatever another party does to one of its parts. -/
theorem mpuStep_assembling (hstep : mpuStep fsPath s act = some s') (hact : ¬ act.Assembles)
    (hrun : s'.runs id = .assembling a) :
    ∃ a₀, s.runs id = .assembling a₀ ∧
      ((a = a₀ ∧ ∀ n, ¬ act.Changes s id n) ∨
        ∃ n₀, (∀ n, act.Changes s id n → n = n₀) ∧
          MpuRun.assembling a = (MpuRun.assembling a₀).touched n₀) := by
  have htouch : ∀ {id₁ n₁}, s.touch id₁ n₁ id = .assembling a →
      (∀ n, act.Changes s id n → id₁ = id ∧ n₁ = n) →
      ∃ a₀, s.runs id = .assembling a₀ ∧
        ((a = a₀ ∧ ∀ n, ¬ act.Changes s id n) ∨
          ∃ n₀, (∀ n, act.Changes s id n → n = n₀) ∧
            MpuRun.assembling a = (MpuRun.assembling a₀).touched n₀) := by
    intro id₁ n₁ h hchanges
    rcases of_update_eq h with ⟨rfl, hnew⟩ | ⟨hne, hold⟩
    · obtain ⟨a₀, hr, -⟩ := MpuRun.touched_fd hnew
      refine ⟨a₀, hr, .inr ⟨n₁, fun n hn => (hchanges n hn).2.symm, ?_⟩⟩
      rw [← hr, hnew]
    · exact ⟨a, hold, .inl ⟨rfl, fun n hn => hne (hchanges n hn).1.symm⟩⟩
  have hcopy : ∀ {call c}, s.copies call = some c → ∀ n,
      (∃ c', s.copies call = some c' ∧ c'.id = id ∧ c'.partNum = n) →
      c.id = id ∧ c.partNum = n := by
    rintro call c hc n ⟨c', hc', hid, hnum⟩
    obtain rfl := Option.some.inj (hc.symm.trans hc')
    exact ⟨hid, hnum⟩
  cases mpuStep_cases hstep with
  | openTmp | skipPart | copyPart | fail | rename => exact absurd trivial hact
  | remove hcommitted hdir =>
    refine ⟨a, hrun, .inl ⟨rfl, fun n hn => ?_⟩⟩
    obtain rfl : _ = id := hn
    cases hcommitted.symm.trans hrun
  | finish =>
    rcases of_update_eq hrun with ⟨-, hnew⟩ | ⟨-, hold⟩
    · cases hnew
    · exact ⟨a, hold, .inl ⟨rfl, fun n hn => hn⟩⟩
  | uploadPart | copyOpen => exact htouch hrun fun n hn => hn
  | copyWrite hc | copyFail hc => exact htouch hrun (hcopy hc)
  | copyClose => exact ⟨a, hrun, .inl ⟨rfl, fun n hn => hn⟩⟩

theorem mpuStep_done (hstep : mpuStep fsPath s act = some s') (hact : ¬ act.Assembles) {torn : Bool}
    (hrun : s'.runs id = .committed torn ∨ s'.runs id = .ok torn) :
    s.runs id = .committed torn ∨ s.runs id = .ok torn := by
  have htouch : ∀ {id₁ n₁ r}, s.touch id₁ n₁ id = r → (r = .committed torn ∨ r = .ok torn) →
      s.runs id = .committed torn ∨ s.runs id = .ok torn := by
    intro id₁ n₁ r h hr
    rcases of_update_eq h with ⟨rfl, hnew⟩ | ⟨-, hold⟩
    · cases hid : s.runs id with
      | assembling a =>
        rw [hid, MpuRun.touched] at hnew
        split at hnew <;> subst hnew <;> simp at hr
      | _ =>
        rw [hid] at hnew
        subst hnew
        exact hr
    · rwa [hold]
  cases mpuStep_cases hstep with
  | openTmp | skipPart | copyPart | fail | rename => exact absurd trivial hact
  | remove | copyClose => exact hrun
  | finish hcommitted =>
    rcases hrun with hrun | hrun
    · rcases of_update_eq hrun with ⟨-, hnew⟩ | ⟨-, hold⟩
      · cases hnew
      · exact .inl hold
    · rcases of_update_eq hrun with ⟨rfl, hnew⟩ | ⟨-, hold⟩
      · obtain rfl := MpuRun.ok.inj hnew
        exact .inl hcommitted
      · exact .inr hold
  | uploadPart | copyOpen | copyWrite | copyFail => exact htouch rfl hrun

theorem MpuCopied.touched {a' : MpuAssembly} {n₀ : ℕ} (h : MpuCopied fsPath V s id a k pieces)
    (htmp : s'.files.path (mpuFinalTmp fsPath) = s.files.path (mpuFinalTmp fsPath))
    (hcontent : s'.files.read (mpuFinalTmp fsPath) = s.files.read (mpuFinalTmp fsPath))
    (hparts : ∀ n, n ≤ mpuMaxPartNumber → n ≠ n₀ → s'.part fsPath id n = s.part fsPath id n)
    (hrun : s'.runs id = .assembling a')
    (ha : MpuRun.assembling a' = (MpuRun.assembling a).touched n₀) :
    MpuCopied fsPath (fun m => V m ∨ m = s') s' id a' k pieces := by
  have hpieces : PieceWise fsPath (fun m => V m ∨ m = s') id k pieces :=
    h.piecewise.mono fun m hm => .inl hm
  rw [MpuRun.touched] at ha
  split at ha
  · -- the part had been copied: the moment found so far stays
    next hbehind =>
    obtain rfl := MpuRun.assembling.inj ha
    rw [h.num] at hbehind
    have hn₀ : n₀ ≤ k := Nat.le_of_lt_succ hbehind
    refine ⟨h.num, h.le, htmp.trans h.tmp, hcontent.trans h.content, h.off, hpieces, (fun h => by cases h),
      fun htorn => ?_⟩
    obtain ⟨m, hm, hasm, hold, hrest⟩ := h.moment htorn
    refine ⟨m, .inl hm, hasm, hold, fun n hkn hn => ?_⟩
    rw [hparts n hn (Nat.ne_of_gt (Nat.lt_of_le_of_lt hn₀ hkn)), hrest n hkn hn]
  · -- the part is still to be copied: unless one before it has changed, the moment is now
    next hahead =>
    obtain rfl := MpuRun.assembling.inj ha
    rw [h.num] at hahead
    have hn₀ : k < n₀ := Nat.le_of_not_lt hahead
    have hsame : a.behind = false → ∀ n, 1 ≤ n → n ≤ k → s'.part fsPath id n = pieces n := by
      intro hbehind n h₁ h₂
      rw [hparts n (Nat.le_trans h₂ h.le) (Nat.ne_of_lt (Nat.lt_of_le_of_lt h₂ hn₀)),
        h.same hbehind n h₁ h₂]
    refine ⟨h.num, h.le, htmp.trans h.tmp, hcontent.trans h.content, h.off, hpieces, hsame,
      fun htorn => ?_⟩
    have hbehind : a.behind = false := (Bool.or_eq_false_iff.mp htorn).2
    exact ⟨s', .inr rfl, ⟨_, hrun⟩, hsame hbehind, fun _ _ _ => rfl⟩

/-- A step beside the assemblies keeps the invariant. -/
theorem MpuInv.beside (hfit : MpuFits fsPath)
    (h : MpuInv fsPath before V s) (hstep : mpuStep fsPath s act = some s')
    (hact : ¬ act.Assembles) : MpuInv fsPath before (fun m => V m ∨ m = s') s' := by
  have htmp := mpuStep_beside hfit h.wf hstep hact (.inr rfl)
  have hobject := mpuStep_beside hfit h.wf hstep hact (.inl rfl)
  have hmono : ∀ m, V m → V m ∨ m = s' := fun m hm => .inl hm
  have hassembling : ∀ {id}, s'.Assembling id → s.Assembling id := by
    rintro id ⟨a, hrun⟩
    obtain ⟨a₀, hold, -⟩ := mpuStep_assembling hstep hact hrun
    exact ⟨a₀, hold⟩
  refine ⟨h.wf.step hfit hstep, fun h₁ h₂ => h.one (hassembling h₁) (hassembling h₂), ?_, ?_, ?_⟩
  · intro id a hrun
    obtain ⟨a₀, hold, hcase⟩ := mpuStep_assembling hstep hact hrun
    obtain ⟨k, pieces, hcopied⟩ := h.copied hold
    refine ⟨k, pieces, ?_⟩
    rcases hcase with ⟨rfl, hnone⟩ | ⟨n₀, hone, htouched⟩
    · have hparts : ∀ n, n ≤ mpuMaxPartNumber → s'.part fsPath id n = s.part fsPath id n :=
        fun n hn => mpuStep_part hfit h.wf hstep hn (hnone n)
      refine ⟨hcopied.num, hcopied.le, htmp.1.trans hcopied.tmp, htmp.2.trans hcopied.content,
        hcopied.off, hcopied.piecewise.mono hmono, fun hbehind n h₁ h₂ => ?_, fun htorn => ?_⟩
      · rw [hparts n (Nat.le_trans h₂ hcopied.le), hcopied.same hbehind n h₁ h₂]
      · obtain ⟨m, hm, hasm, hpieces, hrest⟩ := hcopied.moment htorn
        refine ⟨m, .inl hm, hasm, hpieces, fun n hkn hn => ?_⟩
        rw [hparts n hn, hrest n hkn hn]
    · exact hcopied.touched htmp.1 htmp.2
        (fun n hn hne => mpuStep_part hfit h.wf hstep hn fun hch => hne (hone n hch)) hrun htouched
  · intro id torn hrun
    obtain ⟨bytes, hpub⟩ := h.done (mpuStep_done hstep hact hrun)
    exact ⟨bytes, hpub.mono hmono⟩
  · rcases h.object with hsame | ⟨id, torn, bytes, hbytes, hpub⟩
    · exact .inl (hobject.2.trans hsame)
    · exact .inr ⟨id, torn, bytes, hobject.2.trans hbytes, hpub.mono hmono⟩

/-! ### Steps of an assembly -/

theorem MpuInv.alone (h : MpuInv fsPath before V s) (hrun : s.runs id = .assembling a) {id' : UploadId}
    (h' : s.Assembling id') : id' = id :=
  h.one h' ⟨a, hrun⟩

/-- A run that ends, with the object that it published or with none -/
theorem MpuInv.ended (h : MpuInv fsPath before V s) (hwf : MpuWf fsPath s') {r : MpuRun}
    (hrun : s.runs id = .assembling a) (hruns : s'.runs = update s.runs id r)
    (hr : ∀ a', r ≠ .assembling a')
    (hdone : ∀ torn, r = .committed torn ∨ r = .ok torn →
      ∃ bytes, MpuPublished fsPath (fun m => V m ∨ m = s') id torn bytes)
    (hobject : s'.object fsPath = s.object fsPath ∨ ∃ id torn bytes,
      s'.object fsPath = some bytes ∧
        MpuPublished fsPath (fun m => V m ∨ m = s') id torn bytes) :
    MpuInv fsPath before (fun m => V m ∨ m = s') s' := by
  have hmono : ∀ m, V m → V m ∨ m = s' := fun m hm => .inl hm
  have hnone : ∀ id', ¬ s'.Assembling id' := by
    rintro id' ⟨a', hrun'⟩
    rw [hruns] at hrun'
    rcases of_update_eq hrun' with ⟨-, hnew⟩ | ⟨hne, hold⟩
    · exact hr a' hnew
    · exact hne (h.alone hrun ⟨a', hold⟩)
  refine ⟨hwf, fun h₁ => absurd h₁ (hnone _), fun {id' a'} hrun' =>
    absurd ⟨a', hrun'⟩ (hnone id'), ?_, ?_⟩
  · intro id' torn hrun'
    rw [hruns] at hrun'
    by_cases hid : id' = id
    · subst hid
      rw [update_self] at hrun'
      exact hdone torn hrun'
    · rw [update_of_ne hid] at hrun'
      obtain ⟨bytes, hpub⟩ := h.done hrun'
      exact ⟨bytes, hpub.mono hmono⟩
  · rcases hobject with hsame | hnew
    · rw [hsame]
      rcases h.object with hbefore | ⟨id', torn, bytes, hbytes, hpub⟩
      · exact .inl hbefore
      · exact .inr ⟨id', torn, bytes, hbytes, hpub.mono hmono⟩
    · exact .inr hnew

/-- A run that goes on alone -/
theorem MpuInv.goesOn (h : MpuInv fsPath before V s) (hwf : MpuWf fsPath s')
    (halone : ∀ id', s.Assembling id' → id' = id)
    (hruns : s'.runs = update s.runs id (.assembling a))
    (hobject : s'.object fsPath = s.object fsPath)
    (hcopied : ∃ k pieces, MpuCopied fsPath (fun m => V m ∨ m = s') s' id a k pieces) :
    MpuInv fsPath before (fun m => V m ∨ m = s') s' := by
  have hmono : ∀ m, V m → V m ∨ m = s' := fun m hm => .inl hm
  have honly : ∀ {id' a'}, s'.runs id' = .assembling a' → id' = id ∧ a' = a := by
    intro id' a' hrun'
    rw [hruns] at hrun'
    rcases of_update_eq hrun' with ⟨hid, hnew⟩ | ⟨hne, hold⟩
    · exact ⟨hid, (MpuRun.assembling.inj hnew).symm⟩
    · exact absurd (halone id' ⟨a', hold⟩) hne
  refine ⟨hwf, ?_, ?_, ?_, ?_⟩
  · rintro id₁ id₂ ⟨a₁, h₁⟩ ⟨a₂, h₂⟩
    rw [(honly h₁).1, (honly h₂).1]
  · intro id' a' hrun'
    obtain ⟨rfl, rfl⟩ := honly hrun'
    exact hcopied
  · intro id' torn hrun'
    rw [hruns] at hrun'
    by_cases hid : id' = id
    · subst hid
      rw [update_self] at hrun'
      simp at hrun'
    · rw [update_of_ne hid] at hrun'
      obtain ⟨bytes, hpub⟩ := h.done hrun'
      exact ⟨bytes, hpub.mono hmono⟩
  · rw [hobject]
    rcases h.object with hbefore | ⟨id', torn, bytes, hbytes, hpub⟩
    · exact .inl hbefore
    · exact .inr ⟨id', torn, bytes, hbytes, hpub.mono hmono⟩

/-- One more part is copied. -/
theorem MpuCopied.next {a' : MpuAssembly} (h : MpuCopied fsPath V s id a k pieces)
    (hV : V s) (hrun : s.runs id = .assembling a) (hnum : a.partNum ≤ mpuMaxPartNumber)
    (hsettled : s.Settled fsPath id a.partNum)
    (hparts : ∀ n, n ≤ mpuMaxPartNumber → s'.part fsPath id n = s.part fsPath id n)
    (htmp : s'.files.path (mpuFinalTmp fsPath) = some a'.finalFd)
    (hcontent : s'.files.read (mpuFinalTmp fsPath) =
      some (joined pieces k ++ (s.part fsPath id a.partNum).getD []))
    (hoff : a'.dstOff = a.dstOff + ((s.part fsPath id a.partNum).getD []).length)
    (hnum' : a'.partNum = a.partNum + 1) (hbehind' : a'.behind = a.behind)
    (htorn' : a'.torn = a.torn) :
    MpuCopied fsPath (fun m => V m ∨ m = s') s' id a' (k + 1)
      (update pieces (k + 1) (s.part fsPath id a.partNum)) := by
  have hkn : k + 1 = a.partNum := h.num.symm
  have hle : k + 1 ≤ mpuMaxPartNumber := hkn ▸ hnum
  have hcase : ∀ {n}, n ≤ k + 1 → n ≤ k ∨ n = k + 1 := Nat.le_or_eq_of_le_succ
  have hold : ∀ n, n ≤ k →
      update pieces (k + 1) (s.part fsPath id a.partNum) n = pieces n :=
    fun n hn => update_of_ne (Nat.ne_of_lt (Nat.lt_succ_of_le hn)) _ _
  have hnew : update pieces (k + 1) (s.part fsPath id a.partNum) (k + 1) =
      s.part fsPath id a.partNum := update_self _ _ _
  have hjoined : joined (update pieces (k + 1) (s.part fsPath id a.partNum)) (k + 1) =
      joined pieces k ++ (s.part fsPath id a.partNum).getD [] := by
    rw [joined_succ, hnew, joined_congr fun n _ hn => hold n hn]
  refine ⟨by rw [hnum', ← hkn], hle, htmp, by rw [hcontent, hjoined], ?_, ?_, ?_, ?_⟩
  · rw [hoff, hjoined, length_append, h.off]
  · intro n h₁ h₂
    rcases hcase h₂ with h₂ | rfl
    · obtain ⟨m, hm, hasm, hpart, hset⟩ := h.piecewise n h₁ h₂
      exact ⟨m, .inl hm, hasm, hpart.trans (hold n h₂).symm, hset⟩
    · exact ⟨s, .inl hV, ⟨a, hrun⟩, by rw [hnew, hkn], by rwa [hkn]⟩
  · intro hbehind n h₁ h₂
    rw [hparts n (Nat.le_trans h₂ hle)]
    rcases hcase h₂ with h₂ | rfl
    · rw [hold n h₂, h.same (hbehind' ▸ hbehind) n h₁ h₂]
    · rw [hnew, hkn]
  · intro htorn
    obtain ⟨m, hm, hasm, hpieces, hrest⟩ := h.moment (htorn' ▸ htorn)
    refine ⟨m, .inl hm, hasm, fun n h₁ h₂ => ?_, fun n hn hmax => ?_⟩
    · rcases hcase h₂ with h₂ | rfl
      · rw [hold n h₂, hpieces n h₁ h₂]
      · rw [hnew, hrest (k + 1) (Nat.lt_succ_self k) hle, hkn]
    · rw [hparts n hmax, hrest n (Nat.lt_of_succ_lt hn) hmax]

/-- **A step of an assembly** keeps the invariant. -/
theorem MpuInv.assembles (hfit : MpuFits fsPath)
    (hV : V s) (h : MpuInv fsPath before V s) (hstep : mpuStep fsPath s act = some s')
    (hclean : act.Clean fsPath s) (hact : act.Assembles) :
    MpuInv fsPath before (fun m => V m ∨ m = s') s' := by
  have hwf := h.wf.step hfit hstep
  have hparts : ∀ id n, n ≤ mpuMaxPartNumber → s'.part fsPath id n = s.part fsPath id n := by
    intro id n hn
    refine mpuStep_part hfit h.wf hstep hn ?_
    cases act <;> first | exact fun hn => hn | exact absurd hact (fun hn => hn)
  have hsep := h.wf.sep
  have htmpNe : fsPath ≠ mpuFinalTmp fsPath := (mpuFinalTmp_ne hfit).symm
  cases mpuStep_cases hstep with
  | openTmp id hidle =>
    have ho := s.files.openTrunc_opened (mpuFinalTmp fsPath)
    refine h.goesOn hwf (fun id' h' => absurd h' (hclean id')) rfl (ho.read_of_ne hsep htmpNe)
      ⟨0, fun _ => none, rfl, Nat.zero_le _, ho.path, ?_, rfl, ?_, ?_, ?_⟩
    · simp [Inodes.read, ho.path, ho.empty]
    · exact fun n h₁ h₂ => absurd (Nat.le_trans h₁ h₂) (by decide)
    · exact fun _ n h₁ h₂ => absurd (Nat.le_trans h₁ h₂) (by decide)
    · exact fun _ => ⟨_, .inr rfl, ⟨_, update_self _ _ _⟩,
        fun n h₁ h₂ => absurd (Nat.le_trans h₁ h₂) (by decide), fun _ _ _ => rfl⟩
  | @skipPart id a hrun hnum hpart =>
    obtain ⟨k, pieces, hcopied⟩ := h.copied hrun
    refine h.goesOn hwf (fun id' h' => h.alone hrun h') rfl rfl
      ⟨k + 1, _, hcopied.next hV hrun hnum (hclean a hrun) (hparts id) hcopied.tmp ?_ ?_ rfl rfl
        rfl⟩
    · rw [hpart]
      simpa using hcopied.content
    · rw [hpart]
      rfl
  | @copyPart id a bytes hrun hnum hpart =>
    obtain ⟨k, pieces, hcopied⟩ := h.copied hrun
    have hobject : s.files.path fsPath ≠ some a.finalFd :=
      fun hpath => htmpNe (hsep.inj hpath hcopied.tmp)
    have hdata : s.files.data a.finalFd = joined pieces k := by
      simpa [Inodes.read, hcopied.tmp] using hcopied.content
    refine h.goesOn hwf (fun id' h' => h.alone hrun h') rfl
      (Inodes.read_write_of_ne hobject _)
      ⟨k + 1, _, hcopied.next hV hrun hnum (hclean a hrun) (hparts id) hcopied.tmp ?_ ?_ rfl rfl
        rfl⟩
    · rw [hpart]
      refine (Inodes.read_write_self hcopied.tmp _).trans ?_
      rw [hdata, hcopied.off, File.pwrite_length]
      rfl
    · rw [hpart]
      rfl
  | @fail id a hrun =>
    refine h.ended hwf hrun rfl (fun a' => (fun h => by cases h)) (fun torn hr => ?_)
      (.inl (Inodes.read_unlink_of_ne htmpNe _))
    rcases hr with hr | hr <;> cases hr
  | @rename id a hrun hall =>
    obtain ⟨k, pieces, hcopied⟩ := h.copied hrun
    rw [hcopied.num] at hall
    have hk : k = mpuMaxPartNumber := Nat.le_antisymm hcopied.le (Nat.le_of_lt_succ hall)
    subst hk
    have hobject : (s.files.rename (mpuFinalTmp fsPath) fsPath).read fsPath =
        some (joined pieces mpuMaxPartNumber) :=
      (Inodes.read_rename_self htmpNe _).trans hcopied.content
    have hpub : ∀ s₁ : MpuState, s₁.runs id = .committed a.torn →
        s₁.object fsPath = some (joined pieces mpuMaxPartNumber) →
        MpuPublished fsPath (fun m => V m ∨ m = s₁) id a.torn (joined pieces mpuMaxPartNumber) := by
      intro s₁ hruns hobj
      refine ⟨⟨s₁, .inr rfl, hruns, hobj⟩, pieces, rfl,
        hcopied.piecewise.mono fun m hm => .inl hm, fun htorn => ?_⟩
      obtain ⟨m, hm, hasm, hpieces, -⟩ := hcopied.moment htorn
      exact ⟨m, .inl hm, hasm, hpieces⟩
    refine h.ended hwf hrun rfl (fun a' => (fun h => by cases h)) (fun torn hr => ?_)
      (.inr ⟨id, a.torn, _, hobject, hpub _ (update_self _ _ _) hobject⟩)
    rcases hr with hr | hr
    · obtain rfl := MpuRun.committed.inj hr
      exact ⟨_, hpub _ (update_self _ _ _) hobject⟩
    · cases hr
  | remove | finish | uploadPart | copyOpen | copyWrite | copyClose | copyFail =>
    exact absurd hact (fun hn => hn)

end

/-! ## Runs -/

/-- Before any assembly: no assembly and no part copy is in progress, and names are separate. -/
structure MpuState.Initial (s : MpuState) : Prop where
  sep : s.files.Separate
  idle : ∀ id, s.runs id = .idle
  quiet : ∀ call, s.copies call = none

/-- One step of one party -/
def MpuStep (fsPath : Bytes) (s : MpuState) (act : MpuAct) (s' : MpuState) : Prop :=
  mpuStep fsPath s act = some s'

/-- A step that mixes no assemblies -/
def MpuCleanStep (fsPath : Bytes) (s : MpuState) (act : MpuAct) (s' : MpuState) : Prop :=
  MpuStep fsPath s act s' ∧ act.Clean fsPath s

/-- Of the states a run went through: every assembly that renamed its temporary put its upload's
parts on the object, and the object is what it was before the run or what some assembly put
there. -/
structure Unmixed (fsPath : Bytes) (before : Option Bytes) (V : MpuState → Prop)
    (s : MpuState) : Prop where
  done : ∀ id torn, s.runs id = .committed torn ∨ s.runs id = .ok torn →
    ∃ bytes, MpuPublished fsPath V id torn bytes
  object : s.object fsPath = before ∨
    ∃ id torn bytes, s.object fsPath = some bytes ∧ MpuPublished fsPath V id torn bytes

variable {s : MpuState} {id : UploadId}

theorem MpuState.Initial.wf (hfit : MpuFits fsPath) (h : s.Initial) :
    MpuWf fsPath s := by
  refine ⟨h.sep, fun ino => ∃ id n, n ≤ mpuMaxPartNumber ∧
    s.files.path (mpuPartPath fsPath id n) = some ino, ?_⟩
  refine ⟨fun {id n ino} hn hpath => ⟨id, n, hn, hpath⟩, ?_, ?_, ?_, ?_, ?_⟩
  · rintro ino hpath ⟨id, n, hn, hpart⟩
    exact mpuPartPath_ne_object hfit id hn (h.sep.inj hpart hpath)
  · rintro ino hpath ⟨id, n, hn, hpart⟩
    exact mpuPartPath_ne_tmp hfit id hn (h.sep.inj hpart hpath)
  · intro id a hrun
    cases (h.idle id).symm.trans hrun
  · intro call c hcopy
    cases (h.quiet call).symm.trans hcopy
  · intro call c id n hcopy
    cases (h.quiet call).symm.trans hcopy

theorem MpuState.Initial.inv (hfit : MpuFits fsPath) (h : s.Initial) :
    MpuInv fsPath (s.object fsPath) (· = s) s := by
  have hnone : ∀ {id r}, s.runs id = r → r = .idle := fun hrun => hrun.symm.trans (h.idle _)
  refine ⟨h.wf hfit, ?_, fun hrun => absurd (hnone hrun) (by simp), ?_, .inl rfl⟩
  · rintro id id' ⟨a, hrun⟩
    cases hnone hrun
  · rintro id torn (hrun | hrun) <;> cases hnone hrun

theorem MpuInv.step (hfit : MpuFits fsPath) {before : Option Bytes} {V : MpuState → Prop}
    {s' : MpuState} {act : MpuAct} (hV : V s) (h : MpuInv fsPath before V s)
    (hstep : MpuCleanStep fsPath s act s') : MpuInv fsPath before (fun m => V m ∨ m = s') s' := by
  by_cases hact : act.Assembles
  · exact h.assembles hfit hV hstep.1 hstep.2 hact
  · exact h.beside hfit hstep.1 hact

/-- Concurrent assemblies for one key do not mix: in a run in which none opens the temporary while
another is in its loop, and none copies a part that a part copy is writing, each that gets to its
rename puts its own upload's parts on the object, and the object is never anything else. -/
theorem assemblies_unmixed (hfit : MpuFits fsPath) {s s' : MpuState} {acts : List MpuAct}
    (hinit : s.Initial) (hrun : Run (MpuCleanStep fsPath) s acts s') :
    Unmixed fsPath (s.object fsPath) (Run.Visits (MpuStep fsPath) s acts s') s' := by
  obtain ⟨V, hsub, hinv⟩ := hrun.history
    (fun V s act s' hV hI hstep => MpuInv.step hfit hV hI hstep) (hinit.inv hfit)
  have hvisits : ∀ m, V m → Run.Visits (MpuStep fsPath) s acts s' m := by
    intro m hm
    obtain ⟨as₁, as₂, hacts, h₁, h₂⟩ := hsub m hm
    exact ⟨as₁, as₂, hacts, h₁.mono fun _ _ _ h => h.1, h₂.mono fun _ _ _ h => h.1⟩
  refine ⟨fun id torn hdone => ?_, ?_⟩
  · obtain ⟨bytes, hpub⟩ := hinv.done hdone
    exact ⟨bytes, hpub.mono hvisits⟩
  · rcases hinv.object with hsame | ⟨id, torn, bytes, hbytes, hpub⟩
    · exact .inl hsame
    · exact .inr ⟨id, torn, bytes, hbytes, hpub.mono hvisits⟩

/-! ## Two uploads at once -/

theorem skips (k : ℕ) {a : MpuAssembly}
    (hrun : s.runs id = .assembling a) (hquiet : ∀ call, s.copies call = none)
    (hnone : ∀ n, a.partNum ≤ n → n ≤ mpuMaxPartNumber → s.part fsPath id n = none)
    (hk : a.partNum + k ≤ mpuMaxPartNumber + 1) :
    Run (MpuCleanStep fsPath) s (replicate k (.copyPart id))
      { s with
        runs := update s.runs id (.assembling { a with partNum := a.partNum + k }) } := by
  induction k generalizing s a with
  | zero =>
    have hsame : update s.runs id (.assembling a) = s.runs := by
      rw [← hrun, update_eq_self]
    rw [replicate_zero]
    simp only [Nat.add_zero, hsame]
    exact .nil s
  | succ k ih =>
    have hnum : a.partNum ≤ mpuMaxPartNumber := by omega
    have hclean : (MpuAct.copyPart id).Clean fsPath s :=
      fun a' _ call c hcopy => absurd ((hquiet call).symm.trans hcopy) (by simp)
    have hstep : MpuStep fsPath s (.copyPart id)
        { s with
          runs := update s.runs id (.assembling { a with partNum := a.partNum + 1 }) } := by
      simp [MpuStep, mpuStep, hrun, hnum, MpuState.copyPart, hnone a.partNum (Nat.le_refl _) hnum]
    have hrest := ih (a := { a with partNum := a.partNum + 1 })
      (s := { s with
        runs := update s.runs id (.assembling { a with partNum := a.partNum + 1 }) })
      (update_self _ _ _) hquiet
      (fun n hn hmax => hnone n (Nat.le_of_succ_le hn) hmax) (by simp only; omega)
    rw [replicate_succ]
    refine .cons ⟨hstep, hclean⟩ ?_
    simp only [update_idem, Nat.add_assoc, Nat.add_comm 1 k] at hrest
    exact hrest

/-- The object `/e/k` -/
def sampleMpuPath : Bytes := [47, 101, 47, 107]

/-- The uploads `a` and `b` -/
def sampleUploadA : UploadId := ⟨[97], by decide⟩

def sampleUploadB : UploadId := ⟨[98], by decide⟩

/-- Each upload has one part, and there is no object yet. -/
def sampleMpuState : MpuState where
  files :=
    ((⟨fun _ => [], 0, fun _ => none⟩ : Inodes Bytes UInt8).put
      (mpuPartPath sampleMpuPath sampleUploadA 1) [97]).put
      (mpuPartPath sampleMpuPath sampleUploadB 1) [98]
  runs := fun _ => .idle
  copies := fun _ => none

theorem sampleMpuFits : MpuFits sampleMpuPath := by decide

theorem sampleMpuState_initial : sampleMpuState.Initial where
  sep := by
    have hempty : (⟨fun _ => [], 0, fun _ => none⟩ : Inodes Bytes UInt8).Separate :=
      ⟨nofun, nofun⟩
    exact (hempty.put _ _).put _ _
  idle _ := rfl
  quiet _ := rfl

theorem sampleMpuState_part {n : ℕ} (hn : n ≤ mpuMaxPartNumber) (h : n ≠ 1) :
    sampleMpuState.part sampleMpuPath id n = none := by
  have hne : ∀ id', mpuPartPath sampleMpuPath id n ≠ mpuPartPath sampleMpuPath id' 1 :=
    fun id' heq => h (mpuPartPath_inj sampleMpuFits hn (by decide) heq).2
  simp [MpuState.part, Inodes.read, sampleMpuState, Inodes.put, update_of_ne (hne _)]

theorem finishes (hne : fsPath ≠ mpuFinalTmp fsPath)
    {a : MpuAssembly} {ino : ℕ} (hrun : s.runs id = .assembling a)
    (hquiet : ∀ call, s.copies call = none)
    (hnone : ∀ n, a.partNum ≤ n → n ≤ mpuMaxPartNumber → s.part fsPath id n = none)
    (hnum : a.partNum ≤ mpuMaxPartNumber) (htmp : s.files.path (mpuFinalTmp fsPath) = some ino) :
    ∃ s', Run (MpuCleanStep fsPath) s
        (replicate (mpuMaxPartNumber + 1 - a.partNum) (.copyPart id) ++ [.rename id]) s' ∧
      s'.object fsPath = some (s.files.data ino) := by
  have hall : a.partNum + (mpuMaxPartNumber + 1 - a.partNum) = mpuMaxPartNumber + 1 := by omega
  have hskips := skips _ hrun hquiet hnone (Nat.le_of_eq hall)
  refine ⟨{ s with
    files := s.files.rename (mpuFinalTmp fsPath) fsPath
    runs := update s.runs id (.committed a.torn) },
    hskips.append (.one ⟨?_, trivial⟩), ?_⟩
  · simp [MpuStep, mpuStep, hall, htmp]
  · refine (Inodes.read_rename_self hne _).trans ?_
    simp [Inodes.read, htmp]

/-- An assembly of the upload `a` alone -/
theorem assemblies_unmixed_sample :
    ∃ acts s, s.object sampleMpuPath = some [97] ∧ Unmixed sampleMpuPath none
      (Run.Visits (MpuStep sampleMpuPath) sampleMpuState acts s) s := by
  obtain ⟨s₁, s₂, hs₁, hs₂, hquiet₁, hquiet₂, hrun, htmp, hdata⟩ : ∃ s₁ s₂,
      mpuStep sampleMpuPath sampleMpuState (.openTmp sampleUploadA) = some s₁ ∧
        mpuStep sampleMpuPath s₁ (.copyPart sampleUploadA) = some s₂ ∧
        (∀ call, s₁.copies call = none) ∧ (∀ call, s₂.copies call = none) ∧
        s₂.runs sampleUploadA = .assembling ⟨2, 2, 1, false, false⟩ ∧
        s₂.files.path (mpuFinalTmp sampleMpuPath) = some 2 ∧ s₂.files.data 2 = [97] :=
    ⟨_, _, rfl, rfl, fun _ => rfl, fun _ => rfl, by decide +kernel, by decide +kernel,
      by decide +kernel⟩
  have hwf := sampleMpuState_initial.wf sampleMpuFits
  have hnone : ∀ n, 2 ≤ n → n ≤ mpuMaxPartNumber →
      s₂.part sampleMpuPath sampleUploadA n = none := by
    intro n h₁ hn
    rw [mpuStep_part sampleMpuFits (hwf.step sampleMpuFits hs₁) hs₂ hn (fun h => h),
      mpuStep_part sampleMpuFits hwf hs₁ hn (fun h => h),
      sampleMpuState_part hn (Nat.ne_of_gt h₁)]
  obtain ⟨s, hrest, hobject⟩ := finishes (mpuFinalTmp_ne sampleMpuFits).symm hrun hquiet₂ hnone
    (by decide) htmp
  have hopen : (MpuAct.openTmp sampleUploadA).Clean sampleMpuPath sampleMpuState :=
    fun id h => nomatch h.choose_spec
  have hcopy : (MpuAct.copyPart sampleUploadA).Clean sampleMpuPath s₁ :=
    fun a _ call c hc => absurd ((hquiet₁ call).symm.trans hc) (by simp)
  have hunmixed := assemblies_unmixed sampleMpuFits sampleMpuState_initial
    (.cons ⟨hs₁, hopen⟩ (.cons ⟨hs₂, hcopy⟩ hrest))
  exact ⟨_, s, hobject.trans (congrArg some hdata), hunmixed⟩

/-- What holds along the run below: the parts stay, and only the two uploads are assembled. -/
structure SampleMpuKept (s : MpuState) : Prop where
  wf : MpuWf sampleMpuPath s
  partA : s.part sampleMpuPath sampleUploadA 1 = some [97]
  partB : s.part sampleMpuPath sampleUploadB 1 = some [98]
  runs : ∀ id, s.runs id ≠ .idle → id = sampleUploadA ∨ id = sampleUploadB

theorem SampleMpuKept.step {s' : MpuState} {act : MpuAct} (h : SampleMpuKept s)
    (hstep : MpuStep sampleMpuPath s act s')
    (hact : act = .openTmp sampleUploadA ∨ act = .openTmp sampleUploadB ∨
      act = .copyPart sampleUploadA ∨ act = .rename sampleUploadA) : SampleMpuKept s' := by
  have hparts : ∀ id, s'.part sampleMpuPath id 1 = s.part sampleMpuPath id 1 := by
    intro id
    refine mpuStep_part sampleMpuFits h.wf hstep (by decide) ?_
    rcases hact with rfl | rfl | rfl | rfl <;> exact fun h => h
  have hruns : ∃ id r, (id = sampleUploadA ∨ id = sampleUploadB) ∧
      s'.runs = update s.runs id r := by
    cases mpuStep_cases hstep with
    | openTmp id =>
      refine ⟨id, _, ?_, rfl⟩
      rcases hact with h | h | h | h <;> cases h <;> simp
    | @skipPart id | @copyPart id | @rename id =>
      refine ⟨id, _, ?_, rfl⟩
      rcases hact with h | h | h | h <;> cases h
      simp
    | _ => simp at hact
  refine ⟨h.wf.step sampleMpuFits hstep, (hparts _).trans h.partA, (hparts _).trans h.partB, ?_⟩
  obtain ⟨id₁, r, hid₁, heq⟩ := hruns
  intro id hid
  rw [heq] at hid
  by_cases hsame : id = id₁
  · rw [hsame]
    exact hid₁
  · rw [update_of_ne hsame] at hid
    exact h.runs id hid

/-- The upload `b` opens the temporary that `a` has copied its part into: `a` renames it as it is
then, and the object is empty. -/
theorem uploads_mix : ¬ ∀ (fsPath : Bytes) (s s' : MpuState) (acts : List MpuAct),
    s.Initial → Run (MpuStep fsPath) s acts s' →
      Unmixed fsPath (s.object fsPath) (Run.Visits (MpuStep fsPath) s acts s') s' := by
  intro h
  obtain ⟨s₁, s₂, s₃, hs₁, hs₂, hs₃, hquiet, hrun, htmp, hdata⟩ : ∃ s₁ s₂ s₃,
      mpuStep sampleMpuPath sampleMpuState (.openTmp sampleUploadA) = some s₁ ∧
        mpuStep sampleMpuPath s₁ (.copyPart sampleUploadA) = some s₂ ∧
        mpuStep sampleMpuPath s₂ (.openTmp sampleUploadB) = some s₃ ∧
        (∀ call, s₃.copies call = none) ∧
        s₃.runs sampleUploadA = .assembling ⟨2, 2, 1, false, false⟩ ∧
        s₃.files.path (mpuFinalTmp sampleMpuPath) = some 2 ∧ s₃.files.data 2 = [] :=
    ⟨_, _, _, rfl, rfl, rfl, fun _ => rfl, by decide +kernel, by decide +kernel,
      by decide +kernel⟩
  have hwf := sampleMpuState_initial.wf sampleMpuFits
  have hwf₁ := hwf.step sampleMpuFits hs₁
  have hnone : ∀ n, 2 ≤ n → n ≤ mpuMaxPartNumber →
      s₃.part sampleMpuPath sampleUploadA n = none := by
    intro n h₁ hn
    rw [mpuStep_part sampleMpuFits (hwf₁.step sampleMpuFits hs₂) hs₃ hn (fun h => h),
      mpuStep_part sampleMpuFits hwf₁ hs₂ hn (fun h => h),
      mpuStep_part sampleMpuFits hwf hs₁ hn (fun h => h),
      sampleMpuState_part hn (Nat.ne_of_gt h₁)]
  obtain ⟨s, hrest, hobject⟩ := finishes (mpuFinalTmp_ne sampleMpuFits).symm hrun hquiet hnone
    (by decide) htmp
  rw [hdata] at hobject
  have hall := Run.cons hs₁ (.cons hs₂ (.cons hs₃ (hrest.mono fun _ _ _ h => h.1)))
  have hstart : SampleMpuKept sampleMpuState :=
    ⟨hwf, by decide +kernel, by decide +kernel, fun id hid => absurd rfl hid⟩
  rcases (h _ _ _ _ sampleMpuState_initial hall).object with hsame | ⟨id, torn, bytes, hbytes, hpub⟩
  · rw [hobject] at hsame
    exact absurd hsame (by decide +kernel)
  · obtain ⟨-, pieces, hjoined, hpieces, -⟩ := hpub
    obtain ⟨m, ⟨as₁, as₂, hacts, hm, -⟩, ⟨a, hassembling⟩, hpart, -⟩ :=
      hpieces 1 (Nat.le_refl 1) (by decide)
    have hkept : SampleMpuKept m := by
      refine hm.invariant_mem (fun s act s' hmem hs hstep => hs.step hstep ?_) hstart
      have hin := mem_append_left as₂ hmem
      rw [← hacts] at hin
      simp only [mem_cons, mem_append, mem_replicate, not_mem_nil,
        or_false] at hin
      tauto
    obtain rfl := Option.some.inj (hobject.symm.trans hbytes)
    have hempty : (pieces 1).getD [] = [] :=
      flatMap_eq_nil_iff.mp hjoined.symm 0 (mem_range.mpr (by decide))
    rcases hkept.runs id (by simp [hassembling]) with rfl | rfl
    · rw [← hpart, hkept.partA] at hempty
      cases hempty
    · rw [← hpart, hkept.partB] at hempty
      cases hempty

end BrixCache
