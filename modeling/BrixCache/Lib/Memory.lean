import Mathlib.Algebra.Group.Nat.Defs
import Mathlib.Data.List.Basic

/-!
# Memory

Cells under natural addresses, loaded and stored in stretches. A load sees a store of its own
stretch, and none of a stretch apart from it.
-/

namespace BrixCache

open List

namespace Memory

variable {α : Type}

/-- The `n` cells from an address on -/
def load (m : ℕ → α) (a n : ℕ) : List α := (range n).map fun i => m (a + i)

/-- The memory with a list of cells from an address on -/
def store (m : ℕ → α) (a : ℕ) (xs : List α) (x : ℕ) : α :=
  if a ≤ x then xs.getD (x - a) (m x) else m x

@[simp] theorem length_load (m : ℕ → α) (a n : ℕ) : (load m a n).length = n := by simp [load]

theorem load_add (m : ℕ → α) (a n k : ℕ) : load m a (n + k) = load m a n ++ load m (a + n) k := by
  rw [load, range_add, map_append, map_map, load, load]
  congr 2
  funext i
  rw [Function.comp_apply, Nat.add_assoc]

theorem load_congr {m m' : ℕ → α} {a n : ℕ} (h : ∀ x, a ≤ x → x < a + n → m x = m' x) :
    load m a n = load m' a n := by
  refine map_congr_left fun i hi => h _ (Nat.le_add_right a i) ?_
  have := mem_range.mp hi
  omega

theorem store_of_lt (m : ℕ → α) {a x : ℕ} (xs : List α) (h : x < a) : store m a xs x = m x :=
  if_neg (Nat.not_le.mpr h)

theorem store_of_ge (m : ℕ → α) {a x : ℕ} {xs : List α} (h : a + xs.length ≤ x) :
    store m a xs x = m x := by
  rw [store, if_pos (by omega), getD_eq_getElem?_getD, getElem?_eq_none (by omega),
    Option.getD_none]

theorem load_store (m : ℕ → α) (a : ℕ) (xs : List α) : load (store m a xs) a xs.length = xs := by
  refine ext_getElem (length_load _ _ _) fun i hi hi' => ?_
  simp only [load, getElem_map, getElem_range, store]
  rw [if_pos (Nat.le_add_right a i), Nat.add_sub_cancel_left, getD_eq_getElem?_getD,
    getElem?_eq_getElem hi', Option.getD_some]

end Memory

end BrixCache
