import Mathlib.Data.List.Induction

/-!
# Runs of labelled transition systems

A system is its step relation: from a state, with a label, to a state. A run is
a list of labels taken one after the other. The rule here is the induction that
every development over runs needs: an invariant kept by every step holds after
every run. A system of several parties keeps them in a table, of which a step
replaces one entry.
-/

namespace BrixCache

open Function List

variable {σ α τ : Type}

/-- `Run step s as s'`: the steps labelled `as` lead from `s` to `s'`. -/
inductive Run (step : σ → α → σ → Prop) : σ → List α → σ → Prop where
  | nil (s : σ) : Run step s [] s
  | cons {s mid s' : σ} {a : α} {as : List α} :
      step s a mid → Run step mid as s' → Run step s (a :: as) s'

namespace Run

variable {step step' : σ → α → σ → Prop}

variable {s s' : σ} {as : List α} {I : σ → Prop}

theorem one {a : α} (h : step s a s') : Run step s [a] s' :=
  .cons h (.nil s')

theorem append {mid : σ} {bs : List α} (h₁ : Run step s as mid)
    (h₂ : Run step mid bs s') : Run step s (as ++ bs) s' := by
  induction h₁ with
  | nil s => exact h₂
  | cons hstep _ ih => exact .cons hstep (ih h₂)

theorem of_foldlM {f : σ → α → Option σ}
    (h : as.foldlM f s = some s') : Run (fun s a s' => f s a = some s') s as s' := by
  induction as generalizing s with
  | nil => exact Option.some.inj h ▸ .nil s
  | cons a as ih =>
    rw [foldlM_cons] at h
    obtain ⟨mid, hmid, hrest⟩ := Option.bind_eq_some_iff.mp h
    exact .cons hmid (ih hrest)

theorem invariant (hkeep : ∀ s a s', I s → step s a s' → I s') (h : Run step s as s') (hs : I s) :
    I s' := by
  induction h with
  | nil s => exact hs
  | cons hstep _ ih => exact ih (hkeep _ _ _ hs hstep)

theorem invariant_mem (h : Run step s as s')
    (hkeep : ∀ s a s', a ∈ as → I s → step s a s' → I s') (hs : I s) : I s' := by
  induction h with
  | nil s => exact hs
  | cons hstep _ ih =>
    exact ih (fun s a s' ha => hkeep s a s' (mem_cons_of_mem _ ha))
      (hkeep _ _ _ mem_cons_self hs hstep)

theorem mono (hsub : ∀ s a s', step s a s' → step' s a s')
    (h : Run step s as s') : Run step' s as s' := by
  induction h with
  | nil s => exact .nil s
  | cons hstep _ ih => exact .cons (hsub _ _ _ hstep) ih

/-- A run goes through a state. -/
def Visits (step : σ → α → σ → Prop) (s : σ) (as : List α) (s' m : σ) : Prop :=
  ∃ as₁ as₂, as = as₁ ++ as₂ ∧ Run step s as₁ m ∧ Run step m as₂ s'

theorem Visits.cons {mid m : σ} {a : α} (hstep : step s a mid)
    (h : Visits step mid as s' m) : Visits step s (a :: as) s' m := by
  obtain ⟨as₁, as₂, rfl, h₁, h₂⟩ := h
  exact ⟨a :: as₁, as₂, rfl, .cons hstep h₁, h₂⟩

/-- **Invariants with a past.** What every step keeps, of a state and the states before it, holds
after every run, of states the run went through. -/
theorem history {I : (σ → Prop) → σ → Prop}
    (hkeep : ∀ V s a s', V s → I V s → step s a s' → I (fun m => V m ∨ m = s') s')
    (h : Run step s as s') (hs : I (· = s) s) :
    ∃ V, (∀ m, V m → Visits step s as s' m) ∧ I V s' := by
  have hgen : ∀ V, V s → I V s → ∃ V', (∀ m, V' m → V m ∨ Visits step s as s' m) ∧ I V' s' := by
    clear hs
    induction h with
    | nil s => exact fun V _ hI => ⟨V, fun m hm => .inl hm, hI⟩
    | cons hstep hrest ih =>
      intro V hV hI
      obtain ⟨V', hsub, hI'⟩ := ih _ (.inr rfl) (hkeep V _ _ _ hV hI hstep)
      refine ⟨V', fun m hm => ?_, hI'⟩
      rcases hsub m hm with (hold | rfl) | hlater
      · exact .inl hold
      · exact .inr ⟨[_], _, rfl, .one hstep, hrest⟩
      · exact .inr (hlater.cons hstep)
  obtain ⟨V, hsub, hI⟩ := hgen (· = s) rfl hs
  refine ⟨V, fun m hm => ?_, hI⟩
  rcases hsub m hm with rfl | hlater
  · exact ⟨[], _, rfl, .nil _, h⟩
  · exact hlater

/-- **Exact conditions.** In a computed run, a property that a step keeps exactly when the step meets
a condition holds in every state reached exactly when every step meets its condition. -/
theorem foldl_prefixes_iff {f : σ → α → σ} {C : σ → α → Prop}
    (hstep : ∀ s a, I s → (I (f s a) ↔ C s a)) (hs : I s) (as : List α) :
    (∀ pre, pre <+: as → I (pre.foldl f s)) ↔
      ∀ pre a, pre ++ [a] <+: as → C (pre.foldl f s) a := by
  constructor
  · intro h pre a hpre
    have hnext := h _ hpre
    rw [foldl_append] at hnext
    exact (hstep _ a (h pre ((prefix_append pre [a]).trans hpre))).mp hnext
  · intro h pre hpre
    induction pre using reverseRecOn with
    | nil => exact hs
    | append_singleton pre a ih =>
      rw [foldl_append]
      exact (hstep _ a (ih ((prefix_append pre [a]).trans hpre))).mpr (h pre a hpre)

end Run

theorem of_update_eq_some {ι : Type} [DecidableEq ι] {table : ι → Option α} {i j : ι}
    {x : Option α} {y : α} (h : update table i x j = some y) :
    (j = i ∧ x = some y) ∨ (j ≠ i ∧ table j = some y) := by
  by_cases hij : j = i
  · subst hij
    rw [update_self] at h
    exact .inl ⟨rfl, h⟩
  · rw [update_of_ne hij] at h
    exact .inr ⟨hij, h⟩

theorem of_update_eq {ι : Type} [DecidableEq ι] {f : ι → α} {i j : ι} {x y : α}
    (h : update f i x j = y) : (j = i ∧ x = y) ∨ (j ≠ i ∧ f j = y) := by
  by_cases hij : j = i
  · subst hij
    exact .inl ⟨rfl, by rwa [update_self] at h⟩
  · exact .inr ⟨hij, by rwa [update_of_ne hij] at h⟩

end BrixCache
