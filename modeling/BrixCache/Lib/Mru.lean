import Mathlib.Tactic.Common

/-!
# Bounded most-recently-used lists

A cache of keyed values as the list of its entries, the most recent first. A
lookup moves its entry to the front; storing beyond the bound forgets the last.
The lemmas say what a later lookup can find: whatever the bound did in between, a
value found is the one last stored.
-/

namespace BrixCache

open List

namespace Mru

variable {α β : Type} [DecidableEq α]

/-- The value of a key. -/
def find (l : List (α × β)) (k : α) : Option β := (l.find? fun e => e.1 = k).map Prod.snd

/-- Forget a key. -/
def drop (l : List (α × β)) (k : α) : List (α × β) := l.filter fun e => e.1 ≠ k

/-- The value of a key, with its entry moved to the front. -/
def get (l : List (α × β)) (k : α) : Option β × List (α × β) :=
  match find l k with
  | some v => (some v, (k, v) :: drop l k)
  | none => (none, l)

/-- Store a value: over the key's own, else before all others, of which the last
goes when they are more than `bound`. -/
def put (bound : ℕ) (l : List (α × β)) (k : α) (v : β) : List (α × β) :=
  match find l k with
  | some _ => (k, v) :: drop l k
  | none => if bound < l.length + 1 then ((k, v) :: l).dropLast else (k, v) :: l

variable {l : List (α × β)} {k k' : α} {v w : β} {bound : ℕ}

theorem find_cons_self (k : α) (v : β) (l : List (α × β)) : find ((k, v) :: l) k = some v := by
  rw [find, find?_cons_of_pos (by simp)]
  rfl

theorem find_cons_of_ne (h : k ≠ k') (v : β) (l : List (α × β)) :
    find ((k, v) :: l) k' = find l k' := by
  rw [find, find, find?_cons_of_neg (by simpa using h)]

theorem mem_of_find (h : find l k = some v) : (k, v) ∈ l := by
  rw [find, Option.map_eq_some_iff] at h
  obtain ⟨e, he, rfl⟩ := h
  have hkey : e.1 = k := by simpa using find?_some he
  rw [← hkey]
  exact mem_of_find?_eq_some he

@[simp] theorem find_drop_self (l : List (α × β)) (k : α) : find (drop l k) k = none := by
  rw [find, Option.map_eq_none_iff, find?_eq_none]
  intro e he
  rw [drop, mem_filter] at he
  simpa using he.2

theorem find_drop_of_ne (h : k' ≠ k) (l : List (α × β)) : find (drop l k) k' = find l k' := by
  rw [find, find, drop, find?_filter]
  congr 2
  funext e
  by_cases he : e.1 = k'
  · simp [he, h]
  · simp [he]

theorem of_find_drop (h : find (drop l k) k' = some v) : k' ≠ k ∧ find l k' = some v := by
  by_cases hk : k' = k
  · rw [hk, find_drop_self] at h
    cases h
  · rw [find_drop_of_ne hk] at h
    exact ⟨hk, h⟩

theorem drop_drop (l : List (α × β)) (k : α) : drop (drop l k) k = drop l k := by
  rw [drop, drop, filter_filter]
  simp only [Bool.and_self]

theorem drop_cons_self (k : α) (v : β) (l : List (α × β)) : drop ((k, v) :: l) k = drop l k := by
  rw [drop, filter_cons_of_neg (by simp)]
  rfl

theorem get_fst (l : List (α × β)) (k : α) : (get l k).1 = find l k := by
  rw [get]
  split <;> simp_all

theorem find_get (l : List (α × β)) (k k' : α) : find (get l k).2 k' = find l k' := by
  rw [get]
  rcases hf : find l k with _ | v
  · rfl
  · by_cases hk : k = k'
    · subst hk
      rw [find_cons_self, hf]
    · rw [find_cons_of_ne hk, find_drop_of_ne (Ne.symm hk)]

theorem of_find_dropLast (h : find l.dropLast k = some v) : find l k = some v := by
  rcases eq_nil_or_concat l with rfl | ⟨front, e, rfl⟩
  · exact h
  · rw [concat_eq_append, dropLast_concat] at h
    rw [concat_eq_append]
    rw [find, Option.map_eq_some_iff] at h ⊢
    obtain ⟨x, hx, hv⟩ := h
    refine ⟨x, ?_, hv⟩
    rw [find?_append, hx]
    rfl

theorem of_find_put (h : find (put bound l k v) k' = some w) :
    (k' = k ∧ w = v) ∨ (k' ≠ k ∧ find l k' = some w) := by
  by_cases hk : k' = k
  · subst hk
    refine .inl ⟨rfl, ?_⟩
    have hfront : find ((k', v) :: l) k' = some w → w = v := by
      intro hw
      rw [find_cons_self] at hw
      exact (Option.some.inj hw).symm
    rw [put] at h
    rcases hf : find l k' with _ | u
    · rw [hf] at h
      by_cases hfull : bound < l.length + 1
      · simp only [if_pos hfull] at h
        exact hfront (of_find_dropLast h)
      · simp only [if_neg hfull] at h
        exact hfront h
    · rw [hf, find_cons_self] at h
      exact (Option.some.inj h).symm
  · refine .inr ⟨hk, ?_⟩
    rw [put] at h
    rcases hf : find l k with _ | u
    · rw [hf] at h
      by_cases hfull : bound < l.length + 1
      · simp only [if_pos hfull] at h
        rw [← find_cons_of_ne (Ne.symm hk) v l]
        exact of_find_dropLast h
      · simp only [if_neg hfull, find_cons_of_ne (Ne.symm hk)] at h
        exact h
    · rw [hf, find_cons_of_ne (Ne.symm hk), find_drop_of_ne hk] at h
      exact h

end Mru

end BrixCache
