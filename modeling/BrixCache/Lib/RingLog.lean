import Mathlib.Order.Lattice

/-!
# A ring of the last entries

A log is kept in `n` slots, one after the other and from the first again: entry `k` in slot
`k % n`. The slots in use then hold the last `n` entries, in some order.
-/

namespace BrixCache

open List

variable {ε : Type} {n : ℕ} {slots : ℕ → ε} {log : List ε}

/-- The last `n` entries of a log -/
def lastOf (n : ℕ) (log : List ε) : List ε := log.drop (log.length - n)

/-- The slots hold the last `n` entries of the log. -/
def RingHolds (n : ℕ) (slots : ℕ → ε) (log : List ε) : Prop :=
  ∀ k x, log.length ≤ k + n → log[k]? = some x → slots (k % n) = x

theorem RingHolds.nil : RingHolds n slots [] := fun _ _ _ h => by cases h

theorem mem_lastOf {x : ε} : x ∈ lastOf n log ↔ ∃ k, log.length ≤ k + n ∧ log[k]? = some x := by
  rw [lastOf, mem_iff_getElem?]
  constructor
  · rintro ⟨i, hi⟩
    rw [getElem?_drop] at hi
    exact ⟨_, by omega, hi⟩
  · rintro ⟨k, hk, hx⟩
    refine ⟨k - (log.length - n), ?_⟩
    rw [getElem?_drop, Nat.add_sub_cancel' (by omega), hx]

theorem RingHolds.push (h : RingHolds n slots log) (x : ε) :
    RingHolds n (Function.update slots (log.length % n) x) (log ++ [x]) := by
  intro k y hk hy
  rw [length_append, length_singleton] at hk
  rcases Nat.lt_trichotomy k log.length with hlt | rfl | hgt
  · rw [getElem?_append_left hlt] at hy
    have hslot : k % n ≠ log.length % n := fun hsame => by
      have hzero := Nat.sub_mod_eq_zero_of_mod_eq hsame.symm
      rw [Nat.mod_eq_of_lt (by omega)] at hzero
      omega
    rw [Function.update_of_ne hslot]
    exact h k y (by omega) hy
  · rw [getElem?_concat_length] at hy
    rw [Function.update_self]
    exact Option.some.inj hy
  · rw [getElem?_eq_none (by rw [length_append]; exact hgt)] at hy
    cases hy

theorem RingHolds.exists_iff (h : RingHolds n slots log) {p : ε → Prop} :
    (∃ i < min log.length n, p (slots i)) ↔ ∃ x ∈ lastOf n log, p x := by
  constructor
  · rintro ⟨i, hi, hp⟩
    obtain ⟨hilog, hin⟩ := Nat.lt_min.mp hi
    -- the last entry that went to slot `i`
    have hdiv := Nat.div_add_mod (log.length - 1 - i) n
    have hmod := Nat.mod_lt (log.length - 1 - i) (Nat.zero_lt_of_lt hin)
    have hk : i + n * ((log.length - 1 - i) / n) < log.length := by omega
    have hslot := h _ _ (by omega) (getElem?_eq_getElem hk)
    rw [Nat.add_mul_mod_self_left, Nat.mod_eq_of_lt hin] at hslot
    exact ⟨_, mem_lastOf.mpr ⟨_, by omega, getElem?_eq_getElem hk⟩, hslot ▸ hp⟩
  · rintro ⟨x, hx, hp⟩
    obtain ⟨k, hk, hget⟩ := mem_lastOf.mp hx
    obtain ⟨hlt, -⟩ := List.getElem?_eq_some_iff.mp hget
    have hn : 0 < n := by omega
    refine ⟨k % n, Nat.lt_min.mpr ⟨Nat.lt_of_le_of_lt (Nat.mod_le k n) hlt, Nat.mod_lt k hn⟩, ?_⟩
    rw [h k x hk hget]
    exact hp

end BrixCache
