import Mathlib.Data.List.Infix
import Mathlib.Data.List.TakeWhile

/-!
# Delimited texts

When the pieces of a text can be told from the text: at the first and the last occurrence of a
separator, in lines, and in the items of a code that tells where an item ends.
-/

namespace BrixCache

open List

variable {α β : Type}

namespace Delimited

/-! ## A separator -/

theorem eq_of_first {sep : α} {a a' r r' : List α} (ha : sep ∉ a) (ha' : sep ∉ a')
    (h : a ++ sep :: r = a' ++ sep :: r') : a = a' ∧ r = r' := by
  induction a generalizing a' with
  | nil =>
    cases a' with
    | nil => simpa using h
    | cons x a' =>
      obtain ⟨rfl, -⟩ := cons.inj h
      simp at ha'
  | cons x a ih =>
    cases a' with
    | nil =>
      obtain ⟨rfl, -⟩ := cons.inj h
      simp at ha
    | cons y a' =>
      obtain ⟨rfl, hrest⟩ := cons.inj h
      obtain ⟨rfl, rfl⟩ := ih (fun hm => ha (mem_cons_of_mem _ hm))
        (fun hm => ha' (mem_cons_of_mem _ hm)) hrest
      exact ⟨rfl, rfl⟩

theorem eq_of_last {sep : α} {a a' r r' : List α} (ha : sep ∉ a) (ha' : sep ∉ a')
    (h : r ++ sep :: a = r' ++ sep :: a') : r = r' ∧ a = a' := by
  have hrev := congrArg reverse h
  simp only [reverse_append, reverse_cons, append_assoc, singleton_append]
    at hrev
  obtain ⟨hend, hfront⟩ := eq_of_first (by simpa using ha) (by simpa using ha') hrev
  exact ⟨reverse_injective hfront, reverse_injective hend⟩

theorem not_eq_of_length {sep : α} {a p r r' : List α} (hp : sep ∉ p)
    (hlen : a.length < p.length) : a ++ sep :: r ≠ p ++ r' := by
  intro h
  have hget := congrArg (·[a.length]?) h
  simp only [getElem?_append_right (Nat.le_refl _), Nat.sub_self, getElem?_cons_zero,
    getElem?_append_left hlen] at hget
  exact hp (mem_of_getElem? hget.symm)

/-! ## Lines -/

/-- The text of some lines -/
def unlines (sep : α) (lines : List (List α)) : List α := lines.flatMap (· ++ [sep])

variable {sep : α} {lines : List (List α)}

theorem head_unlines (h : ∀ x ∈ lines, sep ∉ x ∧ x ≠ []) (r : List α) :
    unlines sep lines ≠ sep :: r := by
  cases lines with
  | nil => simp [unlines]
  | cons x lines =>
    obtain ⟨hx, hne⟩ := h x mem_cons_self
    cases x with
    | nil => exact absurd rfl hne
    | cons c x =>
      intro heq
      obtain ⟨rfl, -⟩ := cons.inj heq
      exact hx mem_cons_self

theorem no_empty_line (h : ∀ x ∈ lines, sep ∉ x ∧ x ≠ []) (q r : List α) :
    unlines sep lines ≠ q ++ sep :: sep :: r := by
  induction lines generalizing q with
  | nil => simp [unlines]
  | cons x lines ih =>
    have hrest : ∀ y ∈ lines, sep ∉ y ∧ y ≠ [] := fun y hy => h y (mem_cons_of_mem _ hy)
    obtain ⟨hx, -⟩ := h x mem_cons_self
    intro heq
    rw [unlines, flatMap_cons, append_assoc, singleton_append] at heq
    by_cases hq : sep ∈ q
    · -- the first line ends inside `q`
      obtain ⟨q₁, q₂, rfl, hq₁⟩ := eq_append_cons_of_mem hq
      rw [append_assoc, cons_append] at heq
      exact ih hrest q₂ (eq_of_first hx hq₁ heq).2
    · exact head_unlines hrest r (eq_of_first hx hq heq).2

theorem unlines_cases (sep : α) (lines : List (List α)) :
    unlines sep lines = [] ∨ ∃ q, unlines sep lines = q ++ [sep] := by
  obtain rfl | ⟨front, x, rfl⟩ := lines.eq_nil_or_concat'
  · exact .inl rfl
  · exact .inr ⟨unlines sep front ++ x, by simp [unlines]⟩

/-- What stands behind the last line of a text without empty lines, and a separator, tells the
text from another one with a piece behind it, even if that piece has separators. -/
theorem eq_of_unlines {lines' : List (List α)} {a a' : List α}
    (h : ∀ x ∈ lines, sep ∉ x ∧ x ≠ []) (ha : sep ∉ a)
    (heq : unlines sep lines' ++ sep :: a' = unlines sep lines ++ sep :: a) : a' = a := by
  by_cases ha' : sep ∈ a'
  · exfalso
    obtain ⟨b, b', hrev, hb⟩ := eq_append_cons_of_mem (mem_reverse.mpr ha')
    have hsplit : a' = b'.reverse ++ sep :: b.reverse := by
      rw [← reverse_reverse a', hrev]
      simp
    rw [hsplit, ← cons_append, ← append_assoc] at heq
    obtain ⟨hfront, -⟩ := eq_of_last (by simpa using hb) ha heq
    -- an empty line would stand where the piece begins
    obtain hnil | ⟨q, hq⟩ := unlines_cases sep lines'
    · rw [hnil] at hfront
      exact head_unlines h _ hfront.symm
    · rw [hq, append_assoc] at hfront
      exact no_empty_line h q _ hfront.symm
  · exact (eq_of_last ha' ha heq).2

/-! ## Codes -/

/-- An item is known from any text that begins with its code. -/
def SelfDelimiting (code : α → List β) : Prop :=
  ∀ ⦃x y : α⦄ ⦃r r' : List β⦄, code x ++ r = code y ++ r' → x = y

theorem SelfDelimiting.flatMap_inj {code : α → List β} (h : SelfDelimiting code)
    (hne : ∀ x, code x ≠ []) {xs ys : List α} (heq : xs.flatMap code = ys.flatMap code) :
    xs = ys := by
  induction xs generalizing ys with
  | nil =>
    cases ys with
    | nil => rfl
    | cons y ys =>
      rw [flatMap_nil, flatMap_cons] at heq
      exact absurd (append_eq_nil_iff.mp heq.symm).1 (hne y)
  | cons x xs ih =>
    cases ys with
    | nil =>
      rw [flatMap_nil, flatMap_cons] at heq
      exact absurd (append_eq_nil_iff.mp heq).1 (hne x)
    | cons y ys =>
      rw [flatMap_cons, flatMap_cons] at heq
      obtain rfl := h heq
      rw [ih (append_cancel_left heq)]

end Delimited

end BrixCache
