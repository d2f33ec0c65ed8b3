import Mathlib.Data.List.Basic

/-!
# Runs of a sorted list

A list sorted by a key has the elements of each key in one run, and the run begins at the first
element whose key is not below it: what a binary search for the key finds.
-/

namespace BrixCache

open List

namespace SortedRuns

open Std

/-! ## Sorting -/

section Sorting

variable {α : Type} {cmp : α → α → Ordering} [TransCmp cmp]

theorem pairwise_mergeSort (xs : List α) :
    (xs.mergeSort fun x y => (cmp x y).isLE).Pairwise fun x y => (cmp x y).isLE := by
  refine List.pairwise_mergeSort (fun a b c => TransCmp.isLE_trans) (fun a b => ?_) xs
  cases h : cmp a b with
  | lt | eq => rfl
  | gt =>
    rw [OrientedCmp.gt_iff_lt] at h
    rw [h]
    rfl

end Sorting

/-! ## Runs -/

section Runs

variable {α β : Type} [Ord β] [LawfulEqOrd β] [DecidableEq β] (key : α → β)

/-- Keys do not go down along the list. -/
def SortedBy (xs : List α) : Prop := xs.Pairwise fun x y => (compare (key x) (key y)).isLE

variable {key}

theorem takeWhile_eq_filter {xs : List α} (hs : SortedBy key xs) {d : β}
    (hge : ∀ x ∈ xs, compare (key x) d ≠ .lt) :
    xs.takeWhile (fun x => key x = d) = xs.filter (fun x => key x = d) := by
  induction xs with
  | nil => rfl
  | cons x xs ih =>
    obtain ⟨hx, hs⟩ := pairwise_cons.mp hs
    by_cases heq : key x = d
    · simp [heq, ih hs fun y hy => hge y (mem_cons_of_mem x hy)]
    · have hgt : compare (key x) d = .gt := by
        cases h : compare (key x) d with
        | lt => exact absurd h (hge x mem_cons_self)
        | eq => exact absurd (LawfulEqOrd.eq_of_compare h) heq
        | gt => rfl
      have hnone : ∀ y ∈ xs, key y ≠ d := by
        rintro y hy rfl
        have := hx y hy
        rw [hgt] at this
        cases this
      have hfilter : xs.filter (fun x => key x = d) = [] := by
        refine filter_eq_nil_iff.mpr fun y hy => ?_
        simpa using hnone y hy
      simp [heq, hfilter]

variable [TransOrd β]

/-- The run of a key in a sorted list -/
theorem exists_lowerBound {xs : List α} (hs : SortedBy key xs) (d : β) :
    ∃ c ≤ xs.length, (∀ i x, xs[i]? = some x → (compare (key x) d = .lt ↔ i < c)) ∧
      (xs.drop c).takeWhile (fun x => key x = d) = xs.filter (fun x => key x = d) := by
  induction xs with
  | nil => exact ⟨0, Nat.le_refl _, by simp, rfl⟩
  | cons x xs ih =>
    have hs' := hs
    obtain ⟨hx, hs⟩ := pairwise_cons.mp hs
    by_cases hlt : compare (key x) d = .lt
    · obtain ⟨c, hc, hbelow, hrun⟩ := ih hs
      have hne : key x ≠ d := by
        rintro rfl
        rw [ReflOrd.compare_self] at hlt
        cases hlt
      refine ⟨c + 1, Nat.succ_le_succ hc, ?_, ?_⟩
      · intro i y hy
        cases i with
        | zero =>
          obtain rfl : x = y := by simpa using hy
          simp [hlt]
        | succ i =>
          rw [hbelow i y (by simpa using hy)]
          omega
      · rw [drop_succ_cons, hrun]
        simp [hne]
    · have hge : ∀ y ∈ x :: xs, compare (key y) d ≠ .lt := by
        intro y hy hylt
        rcases mem_cons.mp hy with rfl | hy
        · exact hlt hylt
        · exact hlt (TransCmp.lt_of_isLE_of_lt (hx y hy) hylt)
      refine ⟨0, Nat.zero_le _, ?_, takeWhile_eq_filter hs' hge⟩
      intro i y hy
      have := hge y (mem_of_getElem? hy)
      simp [this]

end Runs

end SortedRuns

end BrixCache
