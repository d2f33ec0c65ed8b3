import Mathlib.Order.Basic

/-!
# Loops with a bound

A loop that goes from place to place for so many turns at most, where what it does at a place can
fail. It returns exactly if it fails at none of the places that it comes to.
-/

namespace BrixCache

/-- A loop with so many turns left comes to a place; `next` is where it goes on. -/
inductive Visits {ε σ : Type} (next : σ → Except ε (Option σ)) : ℕ → σ → σ → Prop
  | here {turns : ℕ} {s : σ} : Visits next (turns + 1) s s
  | further {turns : ℕ} {s mid t : σ} (step : next s = .ok (some mid))
      (rest : Visits next turns mid t) : Visits next (turns + 1) s t

namespace Visits

variable {ε σ β : Type} {next : σ → Except ε (Option σ)} {s t : σ} {turns : ℕ}

theorem one (h : Visits next 1 s t) : t = s := by
  cases h with
  | here => rfl
  | further _ h => cases h

theorem inv {P : ℕ → σ → Prop}
    (hkeep : ∀ n s mid, P (n + 1) s → next s = .ok (some mid) → P n mid)
    (h : Visits next turns s t) (hs : P turns s) : ∃ n, P (n + 1) t := by
  induction h with
  | here => exact ⟨_, hs⟩
  | further hstep _ ih => exact ih (hkeep _ _ _ hs hstep)

theorem ok_iff {run : ℕ → σ → Except ε β} {P : ℕ → σ → Prop}
    (hkeep : ∀ n s mid, P (n + 1) s → next s = .ok (some mid) → P n mid)
    (hstop : ∀ s, P 0 s → ∃ b, run 0 s = .ok b)
    (hrun : ∀ n s, (∃ b, run (n + 1) s = .ok b) ↔
      ∃ r, next s = .ok r ∧ ∀ mid, r = some mid → ∃ b, run n mid = .ok b)
    (hs : P turns s) :
    (∃ b, run turns s = .ok b) ↔ ∀ t, Visits next turns s t → ∃ r, next t = .ok r := by
  induction turns generalizing s with
  | zero => exact iff_of_true (hstop s hs) fun t ht => by cases ht
  | succ turns ih =>
    rw [hrun turns s]
    constructor
    · rintro ⟨r, hr, hrest⟩ t ht
      cases ht with
      | here => exact ⟨r, hr⟩
      | further hstep ht =>
        obtain rfl := Except.ok.inj (hr.symm.trans hstep)
        exact (ih (hkeep _ _ _ hs hstep)).mp (hrest _ rfl) t ht
    · intro h
      obtain ⟨r, hr⟩ := h s .here
      refine ⟨r, hr, ?_⟩
      rintro mid rfl
      exact (ih (hkeep _ _ _ hs hr)).mpr fun t ht => h t (.further hr ht)

end Visits

end BrixCache
