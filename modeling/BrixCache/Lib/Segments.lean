import Mathlib.Data.List.Infix

/-!
# Strings with a separator

What stands before the last separator of a string, and the order in which one string
is another with a separator and more behind it: the parent of a path, and the paths
below one. Rewriting the front of a string rewrites the front of its parent.
-/

namespace BrixCache

open List

variable {α : Type}

namespace Segments

variable (sep : α)

/-- `p` is `s` with a separator and more behind it. -/
def Below (s p : List α) : Prop := s ++ [sep] <+: p

/-- `p` is `s` or below it. -/
def AtOrBelow (s p : List α) : Prop := p = s ∨ Below sep s p

/-- `p` with the front `s` replaced by `d`. -/
def refront (s d p : List α) : List α := d ++ p.drop s.length

variable {sep} {s s' p p' d : List α}

theorem below_iff : Below sep s p ↔ ∃ t, p = s ++ sep :: t := by
  constructor
  · rintro ⟨t, rfl⟩
    exact ⟨t, by simp⟩
  · rintro ⟨t, rfl⟩
    exact ⟨t, by simp⟩

theorem Below.length (h : Below sep s p) : s.length < p.length := by
  obtain ⟨t, rfl⟩ := below_iff.mp h
  rw [length_append, length_cons]
  omega

theorem Below.trans (h : Below sep s p) (h' : Below sep p p') : Below sep s p' := by
  obtain ⟨t, rfl⟩ := below_iff.mp h
  obtain ⟨t', rfl⟩ := below_iff.mp h'
  exact below_iff.mpr ⟨t ++ sep :: t', by simp⟩

theorem AtOrBelow.below (h : AtOrBelow sep s p) (h' : Below sep p p') : Below sep s p' := by
  obtain rfl | h := h
  · exact h'
  · exact h.trans h'

theorem AtOrBelow.comparable (h : AtOrBelow sep s p) (h' : AtOrBelow sep s' p) :
    AtOrBelow sep s s' ∨ Below sep s' s := by
  obtain rfl | h := h
  · obtain heq | h' := h'
    · exact .inl (.inl heq.symm)
    · exact .inr h'
  · obtain rfl | h' := h'
    · exact .inl (.inr h)
    · obtain hle | hle := Nat.le_total (s ++ [sep]).length (s' ++ [sep]).length
      · obtain ⟨t, ht⟩ := prefix_of_prefix_length_le h h' hle
        cases t using reverseRecOn with
        | nil =>
          rw [append_nil] at ht
          exact .inl (.inl (append_inj_left' ht rfl).symm)
        | append_singleton t c =>
          rw [← append_assoc] at ht
          exact .inl (.inr ⟨t, append_inj_left' ht rfl⟩)
      · obtain ⟨t, ht⟩ := prefix_of_prefix_length_le h' h hle
        cases t using reverseRecOn with
        | nil =>
          rw [append_nil] at ht
          exact .inl (.inl (append_inj_left' ht rfl))
        | append_singleton t c =>
          rw [← append_assoc] at ht
          exact .inr ⟨t, append_inj_left' ht rfl⟩

/-! ## Rewriting the front -/

theorem refront_append (s d t : List α) : refront s d (s ++ t) = d ++ t := by
  rw [refront, drop_left]

theorem refront_self (s d : List α) : refront s d s = d := by
  have h := refront_append s d []
  rwa [append_nil, append_nil] at h

theorem refront_refront (s d e p : List α) : refront d e (refront s d p) = refront s e p := by
  rw [refront, refront, drop_left, refront]

theorem refront_eq_self (h : AtOrBelow sep s p) : refront s s p = p := by
  obtain rfl | h := h
  · exact refront_self p p
  · obtain ⟨t, rfl⟩ := below_iff.mp h
    exact refront_append s s _

theorem refront_below (h : Below sep s p) (d : List α) : Below sep d (refront s d p) := by
  obtain ⟨t, rfl⟩ := below_iff.mp h
  rw [refront_append]
  exact below_iff.mpr ⟨t, rfl⟩

theorem refront_atOrBelow (h : AtOrBelow sep s p) (d : List α) :
    AtOrBelow sep d (refront s d p) := by
  obtain rfl | h := h
  · exact .inl (refront_self p d)
  · exact .inr (refront_below h d)

/-! ## The parent -/

variable [DecidableEq α]

variable (sep) in
/-- What stands before the last separator; none without one. -/
def beforeLast : List α → Option (List α)
  | [] => none
  | c :: cs =>
    match beforeLast cs with
    | some d => some (c :: d)
    | none => if c = sep then some [] else none

instance (s p : List α) : Decidable (Below sep s p) := inferInstanceAs (Decidable (_ <+: _))

instance (s p : List α) : Decidable (AtOrBelow sep s p) := inferInstanceAs (Decidable (_ ∨ _))

theorem beforeLast_eq_none : beforeLast sep p = none ↔ sep ∉ p := by
  induction p with
  | nil => simp [beforeLast]
  | cons c cs ih =>
    rw [beforeLast]
    cases h : beforeLast sep cs with
    | some d =>
      have hin : sep ∈ cs := by
        by_contra hout
        rw [ih.mpr hout] at h
        cases h
      simp [hin]
    | none =>
      have hout := ih.mp h
      by_cases hc : c = sep
      · simp [hc]
      · simp [hc, hout, Ne.symm hc]

theorem beforeLast_eq_some : beforeLast sep p = some d ↔ ∃ leaf, p = d ++ sep :: leaf ∧ sep ∉ leaf := by
  induction p generalizing d with
  | nil => simp [beforeLast]
  | cons c cs ih =>
    rw [beforeLast]
    cases h : beforeLast sep cs with
    | some d' =>
      obtain ⟨leaf, rfl, hleaf⟩ := ih.mp h
      constructor
      · rintro ⟨⟩
        exact ⟨leaf, rfl, hleaf⟩
      · rintro ⟨leaf', heq, hleaf'⟩
        cases d with
        | nil =>
          -- the separator found in the tail would be in the leaf
          obtain ⟨-, htail⟩ := cons.inj heq
          exact absurd (by simp [← htail]) hleaf'
        | cons c' d =>
          obtain ⟨rfl, htail⟩ := cons.inj heq
          have hd := ih.mpr ⟨leaf', htail, hleaf'⟩
          rw [h] at hd
          rw [Option.some.inj hd]
    | none =>
      have hout := beforeLast_eq_none.mp h
      constructor
      · intro hif
        by_cases hc : c = sep
        · simp only [if_pos hc] at hif
          cases hif
          exact ⟨cs, by rw [hc, nil_append], hout⟩
        · simp only [if_neg hc] at hif
          cases hif
      · rintro ⟨leaf, heq, -⟩
        cases d with
        | nil =>
          obtain ⟨rfl, -⟩ := cons.inj heq
          rw [if_pos rfl]
        | cons c' d =>
          obtain ⟨-, htail⟩ := cons.inj heq
          exact absurd (by simp [htail]) hout

theorem beforeLast_append (s : List α) (h : beforeLast sep p = some d) :
    beforeLast sep (s ++ p) = some (s ++ d) := by
  obtain ⟨leaf, rfl, hleaf⟩ := beforeLast_eq_some.mp h
  exact beforeLast_eq_some.mpr ⟨leaf, (append_assoc ..).symm, hleaf⟩

theorem length_beforeLast (h : beforeLast sep p = some d) : d.length < p.length := by
  obtain ⟨leaf, rfl, -⟩ := beforeLast_eq_some.mp h
  rw [length_append, length_cons]
  omega

theorem below_beforeLast (h : beforeLast sep p = some d) : Below sep d p := by
  obtain ⟨leaf, rfl, -⟩ := beforeLast_eq_some.mp h
  exact ⟨leaf, by simp⟩

theorem Below.atOrBelow_beforeLast (h : Below sep s p) :
    ∃ d, beforeLast sep p = some d ∧ AtOrBelow sep s d := by
  obtain ⟨t, rfl⟩ := below_iff.mp h
  have hsome : beforeLast sep (sep :: t) ≠ none := by
    rw [Ne, beforeLast_eq_none]
    simp
  obtain ⟨d, hd⟩ := Option.ne_none_iff_exists'.mp hsome
  refine ⟨s ++ d, beforeLast_append s hd, ?_⟩
  cases d with
  | nil => exact .inl (append_nil s)
  | cons c d =>
    obtain ⟨leaf, heq, -⟩ := beforeLast_eq_some.mp hd
    obtain ⟨rfl, -⟩ := cons.inj heq
    exact .inr (below_iff.mpr ⟨d, rfl⟩)

theorem beforeLast_refront (h : Below sep s p) (hd : beforeLast sep p = some d) (e : List α) :
    beforeLast sep (refront s e p) = some (refront s e d) := by
  obtain ⟨t, rfl⟩ := below_iff.mp h
  have hsome : beforeLast sep (sep :: t) ≠ none := by
    rw [Ne, beforeLast_eq_none]
    simp
  obtain ⟨d', hd'⟩ := Option.ne_none_iff_exists'.mp hsome
  rw [beforeLast_append s hd'] at hd
  cases hd
  rw [refront_append, refront_append]
  exact beforeLast_append e hd'

end Segments

end BrixCache
