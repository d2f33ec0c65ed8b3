import Mathlib.Tactic.Common

/-!
# Mark and sweep

The two halves of a collector. Marking goes over roots and what they name, each turn of its loops
adding the keys of what it looks at, or failing as a whole: a loop that succeeds adds exactly what
its turns add. Sweeping goes over the entries of a store and removes those that nothing protects:
what a sweep leaves of the store depends on each entry alone.
-/

namespace BrixCache

open List

namespace MarkSweep

variable {κ ι ν φ ε : Type}

/-! ## Marking -/

theorem bind_eq_ok {α β : Type} {x : Except ε α} {f : α → Except ε β} {b : β}
    (h : x >>= f = .ok b) : ∃ a, x = .ok a ∧ f a = .ok b := by
  cases x with
  | error e => cases h
  | ok a => exact ⟨a, rfl, h⟩

theorem foldlM_keeps {τ : Type} (P : τ → Prop) {f : τ → ι → Except ε τ} {l : List ι} {t t' : τ}
    (hf : ∀ i ∈ l, ∀ t t', f t i = .ok t' → P t → P t') (h : l.foldlM f t = .ok t') (ht : P t) :
    P t' := by
  induction l generalizing t with
  | nil =>
    cases h
    exact ht
  | cons i l ih =>
    rw [foldlM_cons] at h
    obtain ⟨mid, hfirst, h⟩ := bind_eq_ok h
    exact ih (fun j hj => hf j (mem_cons_of_mem i hj)) h
      (hf i mem_cons_self _ _ hfirst ht)

section

variable {σ : Type} [Membership κ σ]

/-- A part of the marking that adds the keys of `S`, and no others. -/
def Adds (S : κ → Prop) (mark mark' : σ) : Prop := ∀ k, k ∈ mark' ↔ k ∈ mark ∨ S k

variable {S T : κ → Prop} {mark mark' mark'' : σ}

theorem Adds.nothing (mark : σ) : Adds (fun _ : κ => False) mark mark :=
  fun _ => (or_false _).symm.to_iff

theorem Adds.trans (h : Adds S mark mark') (h' : Adds T mark' mark'') :
    Adds (fun k => S k ∨ T k) mark mark'' := by
  intro k
  rw [h' k, h k, or_assoc]

theorem Adds.congr (h : Adds S mark mark') (heq : ∀ k, S k ↔ T k) : Adds T mark mark' := by
  intro k
  rw [h k, heq k]

theorem Adds.foldlM {τ : Type} (view : τ → σ) {f : τ → ι → Except ε τ} {S : ι → κ → Prop}
    {l : List ι} (hf : ∀ i ∈ l, ∀ t t', f t i = .ok t' → Adds (S i) (view t) (view t'))
    {t t' : τ} (h : l.foldlM f t = .ok t') :
    Adds (fun k => ∃ i ∈ l, S i k) (view t) (view t') := by
  induction l generalizing t with
  | nil =>
    obtain rfl := Except.ok.inj h
    exact (Adds.nothing (view t)).congr fun k => by simp
  | cons i l ih =>
    rw [foldlM_cons] at h
    obtain ⟨mid, hfirst, h⟩ := bind_eq_ok h
    have hrest := ih (fun j hj => hf j (mem_cons_of_mem i hj)) h
    refine ((hf i mem_cons_self _ _ hfirst).trans hrest).congr fun k => ?_
    simp

end

theorem Adds.concat (mark : List κ) (k : κ) : Adds (fun x => x = k) mark (mark ++ [k]) := by
  intro x
  rw [mem_append, mem_singleton]

/-! ## Sweeping -/

section

variable [DecidableEq ν]

def sweepOne (gone : ν → φ → Bool) (files : ν → Option φ) (n : ν) : ν → Option φ :=
  match files n with
  | none => files
  | some f => if gone n f then Function.update files n none else files

theorem foldl_sweepOne (gone : ν → φ → Bool) (files : ν → Option φ) (entries : List ν) (n : ν) :
    entries.foldl (sweepOne gone) files n =
      if n ∈ entries then (files n).filter fun f => !gone n f else files n := by
  induction entries generalizing files with
  | nil => rfl
  | cons m entries ih =>
    have hone : ∀ n, sweepOne gone files m n =
        if n = m then (files n).filter fun f => !gone n f else files n := by
      intro n
      rw [sweepOne]
      rcases hm : files m with _ | f
      · by_cases hn : n = m
        · simp [hn, hm]
        · rw [if_neg hn]
      · by_cases hn : n = m
        · rw [if_pos hn, hn, hm, Option.filter_some]
          by_cases hgone : gone m f
          · simp [hgone]
          · simp [hgone, hm]
        · rw [if_neg hn]
          dsimp only
          split
          · rw [Function.update_of_ne hn]
          · rfl
    rw [foldl_cons, ih, hone]
    by_cases hn : n = m
    · simp [hn, Option.filter_filter]
    · simp [hn]

end

end MarkSweep

end BrixCache
