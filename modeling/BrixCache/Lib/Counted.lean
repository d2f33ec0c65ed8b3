import Mathlib.Data.Finset.Card

/-!
# Reference counts

Holders share resources, each holding one or none, and a resource has a count of the
references to it. Between the step that counts a reference and the one that makes
it, or between letting go and counting down, the reference belongs to nobody: it is
owed. `Counted` says that a count is never below the holders and what is owed; a
resource whose count is one, and which is owed, is held by nobody and may go.
-/

namespace BrixCache

open Function List

variable {P B : Type} [DecidableEq B]

/-- The counts cover the holders and the references owed. -/
def Counted (holds : P → Option B) (owed : List B) (count : B → ℕ) : Prop :=
  ∀ b (S : Finset P), (∀ p ∈ S, holds p = some b) → S.card + owed.count b ≤ count b

namespace Counted

variable {holds : P → Option B} {owed : List B} {count count' : B → ℕ} {b : B}

theorem mono (h : Counted holds owed count) (hle : ∀ c, count c ≤ count' c) :
    Counted holds owed count' := by
  intro c S hS
  exact (h c S hS).trans (hle c)

theorem forget (h : Counted holds (b :: owed) count) : Counted holds owed count := by
  intro c S hS
  have hc := h c S hS
  have hle : owed.count c ≤ (b :: owed).count c := count_le_count_cons
  omega

theorem raise (h : Counted holds owed count) (hb : count b + 1 ≤ count' b)
    (hle : ∀ c ≠ b, count c ≤ count' c) : Counted holds (b :: owed) count' := by
  intro c S hS
  have hc := h c S hS
  by_cases heq : c = b
  · subst heq
    rw [count_cons_self]
    omega
  · rw [count_cons_of_ne (Ne.symm heq)]
    exact hc.trans (hle c heq)

theorem lower (h : Counted holds (b :: owed) count) (hb : count b ≤ count' b + 1)
    (hle : ∀ c ≠ b, count c ≤ count' c) : Counted holds owed count' := by
  intro c S hS
  have hc := h c S hS
  by_cases heq : c = b
  · subst heq
    rw [count_cons_self] at hc
    omega
  · rw [count_cons_of_ne (Ne.symm heq)] at hc
    exact hc.trans (hle c heq)

theorem vacant (h : Counted holds owed count) (hfree : ∀ p, holds p ≠ some b) (howed : b ∉ owed)
    (hpos : 1 ≤ count b) : Counted holds (b :: owed) count := by
  intro c S hS
  by_cases heq : c = b
  · subst heq
    have hempty : S = ∅ := by
      rw [Finset.eq_empty_iff_forall_notMem]
      intro p hp
      exact hfree p (hS p hp)
    rw [hempty, Finset.card_empty, count_cons_self, count_eq_zero.mpr howed]
    omega
  · rw [count_cons_of_ne (Ne.symm heq)]
    exact h c S hS

theorem unheld (h : Counted holds (b :: owed) count) (hb : count b ≤ 1) :
    (∀ p, holds p ≠ some b) ∧ b ∉ owed := by
  constructor
  · intro p hp
    have hone := h b {p} (by simpa using hp)
    rw [Finset.card_singleton, count_cons_self] at hone
    omega
  · intro hmem
    have hpos := count_pos_iff.mpr hmem
    have hzero := h b ∅ (by simp)
    rw [Finset.card_empty, count_cons_self] at hzero
    omega

theorem unique (h : Counted holds owed count) (hb : count b ≤ 1) {p q : P}
    (hp : holds p = some b) (hq : holds q = some b) : p = q := by
  classical
  by_contra hne
  have htwo := h b {p, q} (by simp [hp, hq])
  rw [Finset.card_pair hne] at htwo
  omega

variable [DecidableEq P]

theorem letGo (h : Counted holds owed count) {p : P} (hp : holds p = some b) :
    Counted (update holds p none) (b :: owed) count := by
  intro c S hS
  have hmem : p ∉ S := by
    intro hin
    have hnone := hS p hin
    rw [update_self] at hnone
    cases hnone
  have hold : ∀ q ∈ S, holds q = some c := by
    intro q hq
    have hne : q ≠ p := fun heq => hmem (heq ▸ hq)
    rw [← hS q hq, update_of_ne hne]
  by_cases heq : c = b
  · subst heq
    have hins := h c (insert p S) (by simpa [hp] using hold)
    rw [Finset.card_insert_of_notMem hmem] at hins
    rw [count_cons_self]
    omega
  · rw [count_cons_of_ne (Ne.symm heq)]
    exact h c S hold

theorem hide (h : Counted holds owed count) (p : P) :
    Counted (update holds p none) owed count := by
  cases hp : holds p with
  | none => rwa [← hp, update_eq_self]
  | some b => exact (h.letGo hp).forget

theorem take (h : Counted holds (b :: owed) count) (p : P) :
    Counted (update holds p (some b)) owed count := by
  intro c S hS
  have hold : ∀ q ∈ S.erase p, holds q = some c := by
    intro q hq
    obtain ⟨hne, hin⟩ := Finset.mem_erase.mp hq
    rw [← hS q hin, update_of_ne hne]
  have hc := h c (S.erase p) hold
  by_cases hmem : p ∈ S
  · have hb := hS p hmem
    rw [update_self] at hb
    cases hb
    have hcard := Finset.card_erase_add_one hmem
    rw [count_cons_self] at hc
    omega
  · rw [Finset.erase_eq_of_notMem hmem] at hc
    have hle : owed.count c ≤ (b :: owed).count c := count_le_count_cons
    omega

theorem swap {b' : B} (h : Counted holds (b' :: owed) count) {p : P} (hp : holds p = some b) :
    Counted (update holds p (some b')) (b :: owed) count := by
  have hgo := h.letGo hp
  have hperm : Counted (update holds p none) (b' :: b :: owed) count := by
    intro c S hS
    have hc := hgo c S hS
    rwa [(List.Perm.swap b' b owed).count_eq c] at hc
  have htake := hperm.take p
  rwa [update_idem] at htake

end Counted

end BrixCache
