import Mathlib.Order.Lattice
import Mathlib.Tactic.Common

/-!
# The first of the heaviest

The place a scan for a maximum stops at when ties go to the earlier element. There is one in
every list that is not empty, and taking an element out of the list or putting one in moves it
only as far as it must.
-/

namespace BrixCache

open List

variable {α β : Type} [LinearOrder β] {w : α → β} {xs : List α} {i j : ℕ} {x y : α}

/-- `i` is the first place in `xs` where the weight `w` is greatest. -/
structure FirstMax (w : α → β) (xs : List α) (i : ℕ) : Prop where
  lt : i < xs.length
  /-- nothing is heavier -/
  max : ∀ {x : α}, xs[i]? = some x → ∀ {j : ℕ} {y : α}, xs[j]? = some y → w y ≤ w x
  /-- what stands before is lighter -/
  first : ∀ {x : α}, xs[i]? = some x → ∀ {j : ℕ} {y : α}, j < i → xs[j]? = some y → w y < w x

namespace FirstMax

theorem exists_getElem? (h : FirstMax w xs i) : ∃ x, xs[i]? = some x :=
  ⟨_, getElem?_eq_getElem h.lt⟩

theorem singleton (x : α) : FirstMax w [x] 0 := by
  refine ⟨by simp, ?_, ?_⟩
  · intro x' hx j y hy
    obtain rfl : x = x' := by simpa using hx
    obtain rfl : y = x := by
      rcases j with _ | j
      · simpa using hy.symm
      · simp at hy
    exact le_refl _
  · intro x' _ j y hj
    omega

theorem unique (hi : FirstMax w xs i) (hj : FirstMax w xs j) : i = j := by
  obtain ⟨x, hx⟩ := hi.exists_getElem?
  obtain ⟨y, hy⟩ := hj.exists_getElem?
  rcases Nat.lt_trichotomy i j with hlt | heq | hgt
  · exact absurd (hi.max hx hy) (not_le_of_gt (hj.first hy hlt hx))
  · exact heq
  · exact absurd (hj.max hy hx) (not_le_of_gt (hi.first hx hgt hy))

/-! ## Scanning one more -/

theorem concat_of_lt (h : FirstMax w xs i) (hx : xs[i]? = some x) (hlt : w x < w y) :
    FirstMax w (xs ++ [y]) xs.length := by
  have hbelow : ∀ {j : ℕ} {z : α}, xs[j]? = some z → w z < w y := fun hz =>
    lt_of_le_of_lt (h.max hx hz) hlt
  refine ⟨by simp, ?_, ?_⟩
  · intro y' hy' j z hz
    obtain rfl : y = y' := by simpa using hy'
    rcases mem_append.mp (mem_of_getElem? hz) with hm | hm
    · obtain ⟨k, hk⟩ := getElem?_of_mem hm
      exact le_of_lt (hbelow hk)
    · obtain rfl : z = y := by simpa using hm
      exact le_refl _
  · intro y' hy' j z hj hz
    obtain rfl : y = y' := by simpa using hy'
    rw [getElem?_append_left hj] at hz
    exact hbelow hz

theorem concat_of_le (h : FirstMax w xs i) (hx : xs[i]? = some x) (hle : w y ≤ w x) :
    FirstMax w (xs ++ [y]) i := by
  have hi : (xs ++ [y])[i]? = some x := by rw [getElem?_append_left h.lt, hx]
  refine ⟨by simp; have := h.lt; omega, ?_, ?_⟩
  · intro x' hx' j z hz
    obtain rfl : x = x' := by simpa [hi] using hx'
    rcases mem_append.mp (mem_of_getElem? hz) with hm | hm
    · obtain ⟨k, hk⟩ := getElem?_of_mem hm
      exact h.max hx hk
    · obtain rfl : z = y := by simpa using hm
      exact hle
  · intro x' hx' j z hj hz
    obtain rfl : x = x' := by simpa [hi] using hx'
    rw [getElem?_append_left (Nat.lt_trans hj h.lt)] at hz
    exact h.first hx hj hz

/-! ## One element fewer, one more -/

/-- Where place `i` comes to stand when place `j` is taken out. -/
def without (j i : ℕ) : ℕ := if j < i then i - 1 else i

/-- Where place `i` comes to stand when an element is put in at place `j`. -/
def within (j i : ℕ) : ℕ := if j ≤ i then i + 1 else i

theorem getElem?_without (hne : j ≠ i) : (xs.eraseIdx j)[without j i]? = xs[i]? := by
  rw [getElem?_eraseIdx, without]
  split
  · rw [if_neg (by omega), Nat.sub_add_cancel (by omega)]
  · rw [if_pos (by omega)]

theorem getElem?_within : (xs.insertIdx j y)[within j i]? = xs[i]? := by
  rw [getElem?_insertIdx, within]
  split
  · rw [if_neg (by omega), if_neg (by omega), Nat.add_sub_cancel]
  · rw [if_pos (by omega)]

theorem exists_of_eraseIdx {k : ℕ} (h : (xs.eraseIdx j)[k]? = some y) :
    xs[within j k]? = some y := by
  rw [getElem?_eraseIdx] at h
  rw [within]
  split at h
  · rwa [if_neg (by omega)]
  · rwa [if_pos (by omega)]

theorem eraseIdx (h : FirstMax w xs i) (hne : j ≠ i) :
    FirstMax w (xs.eraseIdx j) (without j i) := by
  refine ⟨?_, ?_, ?_⟩
  · obtain ⟨x, hx⟩ := h.exists_getElem?
    rw [← getElem?_without hne] at hx
    exact (List.getElem?_eq_some_iff.mp hx).1
  · intro x hx k y hy
    rw [getElem?_without hne] at hx
    exact h.max hx (exists_of_eraseIdx hy)
  · intro x hx k y hk hy
    rw [getElem?_without hne] at hx
    refine h.first hx ?_ (exists_of_eraseIdx hy)
    unfold without at hk
    unfold within
    split at hk <;> split <;> omega

theorem insertIdx {k : ℕ} (h : FirstMax w xs i) (hk : FirstMax w (xs.insertIdx j y) k) :
    k = j ∨ k = within j i := by
  rcases Nat.lt_trichotomy j k with hlt | heq | hgt
  · have hout := hk.eraseIdx (Nat.ne_of_lt hlt)
    rw [eraseIdx_insertIdx_self] at hout
    have := h.unique hout
    unfold without at this
    unfold within
    split at this <;> split <;> omega
  · exact .inl heq.symm
  · have hout := hk.eraseIdx (Nat.ne_of_gt hgt)
    rw [eraseIdx_insertIdx_self] at hout
    have := h.unique hout
    unfold without at this
    unfold within
    split at this <;> split <;> omega

end FirstMax

end BrixCache
