import Mathlib.Data.List.Infix
import Mathlib.Data.List.TakeWhile

/-!
# Words

The pieces of a string between its separators, the empty ones left out.
-/

namespace BrixCache

open List

variable {α : Type} [DecidableEq α]

namespace Words

/-- The words of `s` when `w` has been read of the first. -/
def wordsFrom (sep : α) (w : List α) : List α → List (List α)
  | [] => if w = [] then [] else [w]
  | c :: s =>
    if c = sep then
      if w = [] then wordsFrom sep [] s else w :: wordsFrom sep [] s
    else wordsFrom sep (w ++ [c]) s

/-- The words between separators, empty ones left out. -/
def words (sep : α) (s : List α) : List (List α) := wordsFrom sep [] s

variable {sep : α} {w s : List α}

theorem wordsFrom_append (hs : sep ∉ s) (t : List α) :
    wordsFrom sep w (s ++ t) = wordsFrom sep (w ++ s) t := by
  induction s generalizing w with
  | nil => simp
  | cons c s ih =>
    obtain ⟨hc, hs⟩ := not_or.mp (mem_cons.not.mp hs)
    rw [cons_append, wordsFrom, if_neg (Ne.symm hc), ih hs]
    simp

theorem words_eq_self (hs : sep ∉ s) (hne : s ≠ []) : words sep s = [s] := by
  have h := wordsFrom_append (w := []) hs []
  rw [append_nil, nil_append] at h
  rw [words, h, wordsFrom, if_neg hne]

theorem words_append_sep (hs : sep ∉ s) (hne : s ≠ []) (t : List α) :
    words sep (s ++ sep :: t) = s :: words sep t := by
  rw [words, wordsFrom_append hs, nil_append, wordsFrom, if_pos rfl, if_neg hne, words]

theorem wordsFrom_append_sep (t : List α) :
    wordsFrom sep w (s ++ sep :: t) = wordsFrom sep w s ++ words sep t := by
  induction s generalizing w with
  | nil =>
    by_cases hw : w = [] <;> simp [wordsFrom, words, hw]
  | cons c s ih =>
    rw [cons_append, wordsFrom, wordsFrom]
    split
    · split
      · exact ih
      · rw [ih, cons_append]
    · exact ih

theorem words_append (s t : List α) : words sep (s ++ sep :: t) = words sep s ++ words sep t :=
  wordsFrom_append_sep t

@[simp] theorem words_sep_cons (s : List α) : words sep (sep :: s) = words sep s := by
  simp [words, wordsFrom]

theorem words_append_flatMap (w : List α) (ts : List (List α)) :
    words sep (w ++ ts.flatMap (sep :: ·)) = words sep w ++ ts.flatMap (words sep) := by
  induction ts generalizing w with
  | nil => simp
  | cons t ts ih =>
    rw [flatMap_cons, cons_append, words_append, ih, flatMap_cons]

theorem words_flatMap {ws : List (List α)} (h : ∀ x ∈ ws, sep ∉ x ∧ x ≠ []) :
    words sep (ws.flatMap (sep :: ·)) = ws := by
  induction ws with
  | nil => rfl
  | cons x ws ih =>
    have ih := ih fun y hy => h y (mem_cons_of_mem _ hy)
    obtain ⟨hx, hne⟩ := h x mem_cons_self
    rw [flatMap_cons, cons_append, words_sep_cons]
    cases ws with
    | nil => simpa using words_eq_self hx hne
    | cons y ws =>
      rw [flatMap_cons, cons_append, words_sep_cons] at ih
      rw [flatMap_cons, cons_append, words_append_sep hx hne, ih]

@[simp] theorem words_replicate (k : ℕ) : words sep (replicate k sep) = [] := by
  induction k with
  | zero => rfl
  | succ k ih =>
    rw [replicate_succ, words, wordsFrom, if_pos rfl, if_pos rfl]
    exact ih

theorem of_mem_wordsFrom (hw : sep ∉ w) {x : List α} (hx : x ∈ wordsFrom sep w s) :
    sep ∉ x ∧ x ≠ [] := by
  induction s generalizing w with
  | nil =>
    rw [wordsFrom] at hx
    split at hx
    · cases hx
    · next hne =>
      obtain rfl := mem_singleton.mp hx
      exact ⟨hw, hne⟩
  | cons c s ih =>
    rw [wordsFrom] at hx
    split at hx
    · split at hx
      · exact ih not_mem_nil hx
      · next hne =>
        obtain rfl | hx := mem_cons.mp hx
        · exact ⟨hw, hne⟩
        · exact ih not_mem_nil hx
    · next hc => exact ih (by simp [hw, Ne.symm hc]) hx

theorem mem_of_mem_wordsFrom {x : List α} (hx : x ∈ wordsFrom sep w s) {c : α} (hc : c ∈ x) :
    c ∈ w ∨ c ∈ s := by
  induction s generalizing w with
  | nil =>
    rw [wordsFrom] at hx
    split at hx
    · cases hx
    · exact .inl (mem_singleton.mp hx ▸ hc)
  | cons d s ih =>
    rw [wordsFrom] at hx
    split at hx
    · split at hx
      · exact .inr (mem_cons_of_mem _ ((ih hx).resolve_left not_mem_nil))
      · obtain rfl | hx := mem_cons.mp hx
        · exact .inl hc
        · exact .inr (mem_cons_of_mem _ ((ih hx).resolve_left not_mem_nil))
    · simpa [or_assoc] using ih hx

theorem mem_of_mem_words {x : List α} (hx : x ∈ words sep s) {c : α} (hc : c ∈ x) : c ∈ s := by
  simpa using mem_of_mem_wordsFrom hx hc

theorem of_mem_words {x : List α} (hx : x ∈ words sep s) : sep ∉ x ∧ x ≠ [] :=
  of_mem_wordsFrom not_mem_nil hx

theorem words_dropWhile (s : List α) : words sep (s.dropWhile (· = sep)) = words sep s := by
  induction s with
  | nil => rfl
  | cons c s ih =>
    by_cases hc : c = sep
    · subst hc
      rw [dropWhile_cons_of_pos (by simp), ih, words_sep_cons]
    · rw [dropWhile_cons_of_neg (by simpa using hc)]

omit [DecidableEq α] in
theorem dropWhile_head {p : α → Prop} [DecidablePred p] {c : α} {t : List α}
    (h : s.dropWhile (fun x => p x) = c :: t) : ¬ p c := by
  have hhead := head?_dropWhile_not (fun x => decide (p x)) s
  simpa [h] using hhead

theorem words_cons_of_ne {c : α} (hc : c ≠ sep) (s : List α) :
    words sep (c :: s) =
      (c :: s).takeWhile (· ≠ sep) :: words sep ((c :: s).dropWhile (· ≠ sep)) := by
  have hword : sep ∉ (c :: s).takeWhile (· ≠ sep) := fun hmem => by
    simpa using mem_takeWhile_imp hmem
  have hne : (c :: s).takeWhile (· ≠ sep) ≠ [] := by simp [hc]
  have hsplit : (c :: s).takeWhile (· ≠ sep) ++ (c :: s).dropWhile (· ≠ sep) = c :: s :=
    takeWhile_append_dropWhile
  rcases hrest : (c :: s).dropWhile (· ≠ sep) with _ | ⟨d, rest⟩
  · rw [hrest, append_nil] at hsplit
    rw [hsplit] at hword hne ⊢
    rw [words_eq_self hword hne]
    rfl
  · have hd : d = sep := by simpa using dropWhile_head hrest
    rw [hrest, hd] at hsplit
    rw [hd, words_sep_cons, ← words_append_sep hword hne rest, hsplit]

end Words

end BrixCache
