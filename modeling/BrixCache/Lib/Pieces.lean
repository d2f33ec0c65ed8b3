import Mathlib.Tactic.Common

/-!
# Input in pieces

A machine is fed its input in pieces, and keeps its state between them. Where feeding two
pieces one after the other comes to the same as feeding them joined — up to a relation of states
the machine cannot tell apart — so does every way of cutting the input.
-/

namespace BrixCache

variable {σ α β : Type}

/-- A machine for which it does not matter where its input is cut. -/
structure Resumable (feed : σ → List α → σ) (alike : σ → σ → Prop) : Prop where
  refl : ∀ s, alike s s
  symm : ∀ {s t}, alike s t → alike t s
  trans : ∀ {s t u}, alike s t → alike t u → alike s u
  congr : ∀ {s t} (p), alike s t → alike (feed s p) (feed t p)
  nil : ∀ s, alike (feed s []) s
  append : ∀ s p q, alike (feed s (p ++ q)) (feed (feed s p) q)

/-- **Cuts do not matter.** Pieces taken one after the other, each as its symbols are fed, come
to the same as all their symbols fed at once. -/
theorem Resumable.foldl {feed : σ → List α → σ} {alike : σ → σ → Prop} (h : Resumable feed alike)
    {take : σ → β → σ} {symbols : β → List α} {pieces : List β}
    (htake : ∀ s, ∀ b ∈ pieces, alike (take s b) (feed s (symbols b))) (s : σ) :
    alike (pieces.foldl take s) (feed s (pieces.flatMap symbols)) := by
  induction pieces generalizing s with
  | nil => exact h.symm (h.nil s)
  | cons b pieces ih =>
    rw [List.foldl_cons, List.flatMap_cons]
    have hrest := ih (fun s b hb => htake s b (List.mem_cons_of_mem _ hb)) (take s b)
    have hfirst := h.congr (pieces.flatMap symbols) (htake s b List.mem_cons_self)
    exact h.trans hrest (h.trans hfirst (h.symm (h.append s (symbols b) _)))

end BrixCache
