import BrixCache.Core.Negcache

/-!
# The limiter paces

Each miss of a principal comes after a run that leaves the slot held (`noted_answer`). So the first
misses of a window are served, a miss an interval after the last one that was served is served, and
two that are served from the threshold on are an interval apart, unless the first of them was at
time zero: that time in the slot reads as none (`negcacheFair_iff`).
-/

namespace BrixCache

open List

variable {p : NegcacheParams} {key keyHash : UInt32} {s : NegcacheSlot} {t : UInt64}
  {times : List UInt64} {misses : List (UInt64 × UInt32)} {start number nslots armed : ℕ}

theorem last_eq_of_append_eq {A : Type} {P : A → Prop} {pre mid pre' mid' : List A} {x y : A}
    (h : pre ++ x :: mid = pre' ++ y :: mid') (hx : P x) (hy : P y) (hmid : ∀ z ∈ mid, ¬P z)
    (hmid' : ∀ z ∈ mid', ¬P z) : x = y := by
  rcases append_eq_append_iff.mp h with ⟨l, -, hl⟩ | ⟨l, -, hl⟩
  · cases l with
    | nil => exact (cons.inj hl).1
    | cons z l =>
      rw [cons_append] at hl
      obtain ⟨-, rfl⟩ := cons.inj hl
      exact absurd hy (hmid y (by simp))
  · cases l with
    | nil => exact (cons.inj hl).1.symm
    | cons z l =>
      rw [cons_append] at hl
      obtain ⟨-, rfl⟩ := cons.inj hl
      exact absurd hx (hmid' x (by simp))

/-! ## One miss of a run -/

theorem noted_answer (hp : p.Proper) (hs : s.key ≠ key) (hmono : Nondecreasing times)
    {before : List UInt64} (hpre : before ++ [t] <+: times) {a : UInt32}
    (ha : a = ((s.noted p key before).2.note p key t).2)
    (hw : missWindow p ((s.noted p key before).1 ++ [(t, a)]) = some (start, number)) :
    NegcacheHeld p key (s.noted p key before).1 (s.noted p key before).2 ∧
      (number ≤ p.threshold.toNat → a = 0) ∧
      (p.threshold.toNat < number → (a = 0 ↔ (s.noted p key before).2.servedMs = 0 ∨
        p.backoffS.toNat * 1000 ≤ t.toNat - (s.noted p key before).2.servedMs.toNat)) ∧
      (a = 0 ∨ a = p.backoffS) := by
  have hmono' : Nondecreasing (before ++ [t]) := hmono.sublist hpre.sublist
  obtain ⟨hb, -, hlast⟩ := pairwise_append.mp hmono'
  have hheld := negcacheHeld_noted hp hs hb
  have hle : ∀ x ∈ (s.noted p key before).1, x.1.toNat ≤ t.toNat := fun x hx =>
    hlast x.1 (mem_noted hx) t (mem_singleton_self t)
  rw [missWindow_snoc] at hw
  obtain ⟨-, hfew, hmany, hwait⟩ := hheld.note hp hle hw
  rw [ha]
  exact ⟨hheld, hfew, hmany, hwait⟩

theorem missWindow_before {x : UInt64 × UInt32}
    (hw : missWindow p (misses ++ [x]) = some (start, number)) (hnumber : 1 < number) :
    missWindow p misses = some (start, number - 1) := by
  rw [missWindow_snoc] at hw
  unfold missStep at hw
  split at hw
  · obtain ⟨-, rfl⟩ := Prod.mk.inj (Option.some.inj hw)
    omega
  · next start' number' hprev =>
    split at hw
    · obtain ⟨-, rfl⟩ := Prod.mk.inj (Option.some.inj hw)
      omega
    · obtain ⟨rfl, rfl⟩ := Prod.mk.inj (Option.some.inj hw)
      exact hprev

/-! ## Misses at time zero -/

theorem missWindow_zeros (hwindow : 0 < p.windowMs.toNat) (hne : misses ≠ [])
    (hzero : ∀ x ∈ misses, x.1.toNat = 0) : missWindow p misses = some (0, misses.length) := by
  induction misses using reverseRecOn with
  | nil => exact absurd rfl hne
  | append_singleton misses x ih =>
    have hx : x.1.toNat = 0 := hzero x (by simp)
    rw [missWindow_snoc, hx]
    by_cases hnil : misses = []
    · rw [hnil]
      rfl
    · have hin : ¬p.windowMs.toNat ≤ 0 - 0 := by omega
      rw [ih hnil fun y hy => hzero y (mem_append_left _ hy)]
      simp only [missStep, if_neg hin, length_append, length_singleton]

/-- **After misses at time zero alone** the next one within the window is served: whether or not
the limiter is armed, the slot holds the time zero. -/
theorem served_of_zeros (hp : p.Proper) (hs : s.key ≠ key) (hmono : Nondecreasing times)
    {before : List UInt64} (hpre : before ++ [t] <+: times)
    (hzero : ∀ u ∈ before, u.toNat = 0) (ht : t.toNat < p.windowMs.toNat) :
    ((s.noted p key before).2.note p key t).2 = 0 := by
  have hwindow : 0 < p.windowMs.toNat := by omega
  have hthreshold := hp.threshold
  have hzero' : ∀ x ∈ (s.noted p key before).1, x.1.toNat = 0 := fun x hx =>
    hzero x.1 (mem_noted hx)
  obtain ⟨start, number, hw⟩ : ∃ start number, missWindow p ((s.noted p key before).1 ++
      [(t, ((s.noted p key before).2.note p key t).2)]) = some (start, number) := by
    rw [missWindow_snoc]
    exact missStep_eq _ _ _
  obtain ⟨hheld, hfew, hmany, -⟩ := noted_answer hp hs hmono hpre rfl hw
  by_cases hle : number ≤ p.threshold.toNat
  · exact hfew hle
  · have hprev := missWindow_before hw (by omega)
    obtain ⟨pre, mid, first, hsplit, -⟩ := hheld.armed _ _ hprev (by omega)
    have hmem : ((s.noted p key before).2.servedMs, 0) ∈ (s.noted p key before).1 := by
      rw [hsplit]
      simp
    have hsv := hzero' _ hmem
    exact (hmany (by omega)).mpr (.inl (UInt64.toNat_inj.mp hsv))

/-! ## Fair exactly when not armed at time zero -/

theorem negcacheFair_of_unarmed (hp : p.Proper) (harmed : p.threshold.toNat ≤ armed)
    (hs : s.key ≠ key) (hmono : Nondecreasing times) (hcond : NegcacheUnarmedAtZero p armed times) :
    NegcacheFair p armed (s.noted p key times).1 := by
  have hthreshold := hp.threshold
  refine ⟨fun pre t a start number hpre hw hle => ?_,
    fun pre t mid t' start number number' hpre hw hw' hnumber => ?_,
    fun pre t mid t' a hpre hmid hlong => ?_, fun x hx => ?_⟩
  · obtain ⟨before, hb, rfl, ha⟩ := noted_prefix hpre
    exact (noted_answer hp hs hmono hb ha hw).2.1 hle
  · -- the later of the two is beyond the threshold, so it was let through by what the slot held
    have hwhole : pre ++ (t, 0) :: (mid ++ [(t', 0)]) = pre ++ (t, 0) :: mid ++ [(t', 0)] := by
      simp
    rw [hwhole] at hpre hw'
    obtain ⟨before, hb, hbig, ha⟩ := noted_prefix hpre
    have hsame : number' = number + (mid.length + 1) := by
      have hw'' : missWindow p (pre ++ [(t, 0)] ++ (mid ++ [(t', 0)])) = some (start, number') := by
        rw [← hw']
        simp
      have hlater := missWindow_later (by have := hp.shorter; omega) hw hw''
      simpa using hlater
    rw [hbig] at hw'
    obtain ⟨hheld, -, hmany, -⟩ := noted_answer hp hs hmono hb ha hw'
    have hprev := missWindow_before hw' (by omega)
    obtain ⟨pre₂, mid₂, first, hsplit, hmid₂, -⟩ := hheld.armed _ _ hprev (by omega)
    generalize (s.noted p key before).2.servedMs = sv at *
    have htimes : before = pre₂.map Prod.fst ++ sv :: mid₂.map Prod.fst := by
      rw [← noted_times p key s before, hsplit]
      simp
    have hlast : t.toNat ≤ sv.toNat := by
      have hmem : (t, 0) ∈ (s.noted p key before).1 := by
        rw [← hbig]
        simp
      rw [hsplit, mem_append, mem_cons] at hmem
      rcases hmem with hmem | heq | hmem
      · have hm : Nondecreasing before :=
          hmono.sublist ((prefix_append before [t']).trans hb).sublist
        rw [htimes] at hm
        exact (pairwise_append.mp hm).2.2 t (mem_map_of_mem hmem) sv (by simp)
      · exact Nat.le_of_eq (congrArg UInt64.toNat (Prod.mk.inj heq).1)
      · exact absurd rfl (hmid₂ _ hmem)
    rcases (hmany (by omega)).mp rfl with hzero | hlong
    · -- the slot holds no time only when it holds the time zero, and then the former is at zero
      have hnone : (0 : UInt64).toNat = 0 := by simp
      have ht : t = 0 := UInt64.toNat_inj.mp (by rw [hzero] at hlast; omega)
      have hlen := (missWindow_bounds hw).2.2
      rw [length_append, length_singleton] at hlen
      have hbefore : before = pre.map Prod.fst ++ t :: mid.map Prod.fst := by
        rw [← noted_times p key s before, ← hbig]
        simp
      have hwait := hcond (pre.map Prod.fst) (mid.map Prod.fst) t' (by
        rw [hbefore, ht] at hb
        simpa using hb) (by rw [length_map]; omega)
      rw [ht]
      omega
    · omega
  · have hwhole : pre ++ (t, 0) :: (mid ++ [(t', a)]) = pre ++ (t, 0) :: mid ++ [(t', a)] := by
      simp
    rw [hwhole] at hpre
    obtain ⟨before, hb, hbig, ha⟩ := noted_prefix hpre
    obtain ⟨start, number, hw⟩ : ∃ start number,
        missWindow p ((s.noted p key before).1 ++ [(t', a)]) = some (start, number) := by
      rw [missWindow_snoc]
      exact missStep_eq _ _ _
    obtain ⟨hheld, hfew, hmany, -⟩ := noted_answer hp hs hmono hb ha hw
    by_cases hle : number ≤ p.threshold.toNat
    · exact hfew hle
    · have hprev := missWindow_before hw (by omega)
      obtain ⟨pre₂, mid₂, first, hsplit, hmid₂, -⟩ := hheld.armed _ _ hprev (by omega)
      have hsame : (t, (0 : UInt32)) = ((s.noted p key before).2.servedMs, 0) :=
        last_eq_of_append_eq (P := fun x => x.2 = 0) (hbig.trans hsplit) rfl rfl hmid hmid₂
      rw [hmany (by omega), ← (Prod.mk.inj hsame).1]
      exact .inr hlong
  · obtain ⟨l₁, l₂, hsplit⟩ := append_of_mem hx
    have hpre : l₁ ++ [(x.1, x.2)] <+: (s.noted p key times).1 := ⟨l₂, by rw [hsplit]; simp⟩
    obtain ⟨before, hb, rfl, ha⟩ := noted_prefix hpre
    obtain ⟨start, number, hw⟩ : ∃ start number,
        missWindow p ((s.noted p key before).1 ++ [(x.1, x.2)]) = some (start, number) := by
      rw [missWindow_snoc]
      exact missStep_eq _ _ _
    exact (noted_answer hp hs hmono hb ha hw).2.2.2

theorem unarmed_of_negcacheFair (hp : p.Proper) (hs : s.key ≠ key) (hmono : Nondecreasing times)
    (hfair : NegcacheFair p armed (s.noted p key times).1) :
    NegcacheUnarmedAtZero p armed times := by
  intro pre mid t hpre hnumber
  by_contra hsoon
  have hshorter := hp.shorter
  have hnone : (0 : UInt64).toNat = 0 := by simp
  -- the miss after the one at time zero comes no later than `t`
  obtain ⟨u, rest, hmid⟩ : ∃ u rest, mid ++ [t] = u :: rest := by
    cases mid with
    | nil => exact ⟨t, [], rfl⟩
    | cons u mid => exact ⟨u, mid ++ [t], rfl⟩
  have hm : Nondecreasing (pre ++ 0 :: (mid ++ [t])) := hmono.sublist hpre.sublist
  rw [hmid] at hpre hm
  obtain ⟨-, hafter, hbefore⟩ := pairwise_append.mp hm
  have hu : u.toNat ≤ t.toNat := by
    have hrest := (pairwise_cons.mp (pairwise_cons.mp hafter).2).1
    have hlast : t ∈ u :: rest := by
      rw [← hmid]
      simp
    rcases mem_cons.mp hlast with rfl | hlast
    · exact Nat.le_refl _
    · exact hrest t hlast
  have hzero : ∀ v ∈ pre, v.toNat = 0 := fun v hv => by
    have := hbefore v hv 0 (by simp)
    omega
  have hpre₀ : pre ++ [0] <+: times :=
    List.IsPrefix.trans ⟨u :: rest, by simp⟩ hpre
  have hpre₁ : pre ++ [0] ++ [u] <+: times :=
    List.IsPrefix.trans ⟨rest, by simp⟩ hpre
  have hzero₁ : ∀ v ∈ pre ++ [0], v.toNat = 0 := fun v hv => by
    rcases mem_append.mp hv with hv | hv
    · exact hzero v hv
    · rw [mem_singleton.mp hv, hnone]
  have hserved₀ := served_of_zeros hp hs hmono hpre₀ hzero (by omega)
  have hserved₁ := served_of_zeros hp hs hmono hpre₁ hzero₁ (by omega)
  -- both are served, and from the threshold on
  have hnoted₀ : (s.noted p key (pre ++ [0])).1 = (s.noted p key pre).1 ++ [(0, 0)] := by
    rw [NegcacheSlot.noted_snoc, hserved₀]
  have hnoted₁ : (s.noted p key (pre ++ [0] ++ [u])).1 =
      (s.noted p key pre).1 ++ (0, 0) :: ([] ++ [(u, 0)]) := by
    rw [NegcacheSlot.noted_snoc, hserved₁, hnoted₀]
    simp
  have hlen : (s.noted p key pre).1.length = pre.length := by
    rw [← length_map (f := Prod.fst), noted_times]
  have hw₀ : missWindow p ((s.noted p key pre).1 ++ [(0, 0)]) = some (0, pre.length + 1) := by
    rw [missWindow_zeros (by omega) (by simp), length_append, hlen, length_singleton]
    intro x hx
    rw [← hnoted₀] at hx
    exact hzero₁ x.1 (mem_noted hx)
  have hw₁ : missWindow p ((s.noted p key pre).1 ++ (0, 0) :: ([] ++ [(u, 0)])) =
      some (0, pre.length + 1 + 1) := by
    have hin : ¬p.windowMs.toNat ≤ u.toNat - 0 := by omega
    have hsnoc : (s.noted p key pre).1 ++ (0, 0) :: ([] ++ [(u, 0)]) =
        (s.noted p key pre).1 ++ [(0, 0)] ++ [(u, 0)] := by simp
    rw [hsnoc, missWindow_snoc, hw₀]
    simp only [missStep, if_neg hin]
  have hpaced := hfair.paced (s.noted p key pre).1 0 [] u 0 _ _ (by
    rw [← hnoted₁]
    exact noted_mono hpre₁) hw₀ hw₁ (by omega)
  omega

/-- **The limiter is fair to a principal** whose slot is its own exactly when no miss comes sooner
than an interval after one at time zero from which on the misses are to be paced, be that the last
of the first ones (`armed` the threshold) or the one after it; and the misses of the others do not
change what it is told. -/
theorem negcacheFair_iff (calls : List NegcacheCall) (hp : p.Proper) (hslots : 0 < nslots)
    (hothers : ∀ call ∈ calls, call.1 ≠ keyHash →
      negcacheIdx nslots call.1 ≠ negcacheIdx nslots keyHash)
    (hmono : Nondecreasing ((calls.filter fun call => call.1 = keyHash).map Prod.snd)) :
    negcacheMisses p nslots keyHash calls =
        negcacheMisses p nslots keyHash (calls.filter fun call => call.1 = keyHash) ∧
      ∀ armed, p.threshold.toNat ≤ armed →
        (NegcacheFair p armed (negcacheMisses p nslots keyHash calls) ↔
          NegcacheUnarmedAtZero p armed
            ((calls.filter fun call => call.1 = keyHash).map Prod.snd)) := by
  have hshorter := hp.shorter
  have hthreshold : p.threshold ≠ 0 := fun he => by
    have hpos := hp.threshold
    simp [he] at hpos
  have hwindow : p.windowMs ≠ 0 := fun he => by simp [he] at hshorter
  have hs : NegcacheSlot.empty.key ≠ negcacheKey keyHash := by
    unfold negcacheKey
    split
    · simp [NegcacheSlot.empty]
    · next hne => exact Ne.symm hne
  rw [negcacheMisses_eq hthreshold hwindow hslots hothers]
  refine ⟨?_, fun armed harmed => ⟨unarmed_of_negcacheFair hp hs hmono,
    negcacheFair_of_unarmed hp harmed hs hmono⟩⟩
  rw [negcacheMisses_eq hthreshold hwindow hslots fun call hc hne =>
    hothers call (mem_filter.mp hc).1 hne]
  simp

/-- Two misses are free, and one at time zero is the second. -/
theorem negcacheFair_iff_two :
    negcacheMisses ⟨2, 10000, 1⟩ 8 7 [(7, 0), (9, 5), (7, 0), (7, 3000)] =
        negcacheMisses ⟨2, 10000, 1⟩ 8 7 [(7, 0), (7, 0), (7, 3000)] ∧
      ∀ armed, 2 ≤ armed → (NegcacheFair ⟨2, 10000, 1⟩ armed
          (negcacheMisses ⟨2, 10000, 1⟩ 8 7 [(7, 0), (9, 5), (7, 0), (7, 3000)]) ↔
        NegcacheUnarmedAtZero ⟨2, 10000, 1⟩ armed [0, 0, 3000]) :=
  negcacheFair_iff [(7, 0), (9, 5), (7, 0), (7, 3000)] ⟨by simp, by simp, by simp⟩ (by simp)
    (by simp [negcacheIdx, negcacheKey]) (by simp)

/-- Three misses at time zero are served, though one alone is free. -/
theorem not_negcacheFair : ¬∀ (p : NegcacheParams) (nslots : ℕ) (keyHash : UInt32)
    (calls : List NegcacheCall), p.Proper → 0 < nslots →
    (∀ call ∈ calls, call.1 ≠ keyHash →
      negcacheIdx nslots call.1 ≠ negcacheIdx nslots keyHash) →
    Nondecreasing ((calls.filter fun call => call.1 = keyHash).map Prod.snd) →
    NegcacheFair p (p.threshold.toNat + 1) (negcacheMisses p nslots keyHash calls) := by
  intro h
  have hfair := h ⟨1, 10000, 1⟩ 8 7 [(7, 0), (7, 0), (7, 0)] ⟨by simp, by simp, by simp⟩ (by simp)
    (by simp) (by simp)
  have hmisses : negcacheMisses ⟨1, 10000, 1⟩ 8 7 [(7, 0), (7, 0), (7, 0)] =
      [(0, 0), (0, 0), (0, 0)] := by decide +kernel
  rw [hmisses] at hfair
  have hpaced := hfair.paced [(0, 0)] 0 [] 0 0 2 3 (prefix_refl _) (by decide) (by decide)
    (by decide)
  simp at hpaced

end BrixCache
