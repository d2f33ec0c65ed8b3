import Mathlib.Tactic.Common

/-!
# Procedures and their cut points

A procedure that changes durable state does so in steps, and the machine may stop
after any of them. A `Proc` is a procedure with the state each of its steps
leaves: `cuts` lists them in order. `Proc.wp` is what has to hold before a
procedure for a condition to hold at every cut, and another of its value and its
last state; it goes through a procedure's text step by step.
-/

namespace BrixCache

open List

variable {σ α β : Type}

/-- What a procedure leaves behind. -/
structure Trail (σ α : Type) where
  /-- the state after each step -/
  cuts : List σ
  value : α

/-- The state at the end, from the state at the start. -/
def Trail.last (t : Trail σ α) (s : σ) : σ := t.cuts.getLastD s

theorem Trail.last_append (t : Trail σ α) (t' : Trail σ β) (s : σ) :
    Trail.last ⟨t.cuts ++ t'.cuts, t'.value⟩ s = t'.last (t.last s) := by
  simp only [Trail.last, getLastD_eq_getLast?, getLast?_append]
  cases t'.cuts.getLast? <;> rfl

/-- A procedure over states `σ`. -/
def Proc (σ α : Type) : Type := σ → Trail σ α

namespace Proc

/-- Return, with no step. -/
protected def pure (x : α) : Proc σ α := fun _ => ⟨[], x⟩

/-- One procedure after the other. -/
protected def bind (p : Proc σ α) (f : α → Proc σ β) : Proc σ β := fun s =>
  let t := p s
  let t' := f t.value (t.last s)
  ⟨t.cuts ++ t'.cuts, t'.value⟩

instance : Monad (Proc σ) where
  pure := Proc.pure
  bind := Proc.bind

def step (f : σ → σ) : Proc σ Unit := fun s => ⟨[f s], ()⟩

/-- A step that may fail: then it changes nothing. -/
def attempt (ok : Bool) (f : σ → σ) : Proc σ Bool := fun s => ⟨if ok then [f s] else [], ok⟩

/-- Look at the state. -/
def gets (f : σ → α) : Proc σ α := fun s => ⟨[], f s⟩

/-- The states a procedure may be stopped in. -/
def Stops (p : Proc σ α) (s s' : σ) : Prop := s' = s ∨ s' ∈ (p s).cuts

/-- Every cut of `p` from `s` satisfies `C`, and its value and last state `Q`. -/
def wp (C : σ → Prop) (p : Proc σ α) (Q : α → σ → Prop) (s : σ) : Prop :=
  (∀ s' ∈ (p s).cuts, C s') ∧ Q (p s).value ((p s).last s)

variable {C : σ → Prop} {s : σ}

theorem gets_bind (f : σ → α) (g : α → Proc σ β) (s : σ) : (gets f >>= g) s = g (f s) s := rfl

theorem cuts_bind (p : Proc σ α) (f : α → Proc σ β) (s : σ) :
    ((p >>= f) s).cuts = (p s).cuts ++ (f (p s).value ((p s).last s)).cuts := rfl

@[simp] theorem wp_pure (x : α) (Q : α → σ → Prop) : wp C (pure x) Q s ↔ Q x s := by
  constructor
  · rintro ⟨-, h⟩
    exact h
  · intro h
    refine ⟨?_, h⟩
    intro s' hs'
    cases hs'

@[simp] theorem wp_bind (p : Proc σ α) (f : α → Proc σ β) (Q : β → σ → Prop) :
    wp C (p >>= f) Q s ↔ wp C p (fun x => wp C (f x) Q) s := by
  have hlast : Trail.last ((p >>= f) s) s =
      Trail.last (f (p s).value ((p s).last s)) ((p s).last s) :=
    Trail.last_append _ _ _
  have hvalue : ((p >>= f) s).value = (f (p s).value ((p s).last s)).value := rfl
  simp only [wp, hlast, cuts_bind, hvalue, mem_append]
  constructor
  · rintro ⟨hc, hq⟩
    exact ⟨fun s' h => hc s' (.inl h), fun s' h => hc s' (.inr h), hq⟩
  · rintro ⟨h₁, h₂, hq⟩
    exact ⟨fun s' h => h.elim (h₁ s') (h₂ s'), hq⟩

@[simp] theorem wp_step (f : σ → σ) (Q : Unit → σ → Prop) :
    wp C (step f) Q s ↔ C (f s) ∧ Q () (f s) := by
  simp [wp, step, Trail.last]

@[simp] theorem wp_attempt (ok : Bool) (f : σ → σ) (Q : Bool → σ → Prop) :
    wp C (attempt ok f) Q s ↔ if ok then C (f s) ∧ Q true (f s) else Q false s := by
  cases ok <;> simp [wp, attempt, Trail.last]

@[simp] theorem wp_gets (f : σ → α) (Q : α → σ → Prop) : wp C (gets f) Q s ↔ Q (f s) s := by
  simp [wp, gets, Trail.last]

@[simp] theorem wp_ite (c : Prop) [Decidable c] (p q : Proc σ α) (Q : α → σ → Prop) :
    wp C (if c then p else q) Q s ↔ if c then wp C p Q s else wp C q Q s := by
  split <;> rfl

variable {Q : α → σ → Prop} {p : Proc σ α} {n : ℕ}

theorem wp_mono {C' : σ → Prop} {Q' : α → σ → Prop} (h : wp C p Q s)
    (hC : ∀ s, C s → C' s) (hQ : ∀ x s, Q x s → Q' x s) : wp C' p Q' s :=
  ⟨fun s' hs' => hC s' (h.1 s' hs'), hQ _ _ h.2⟩

theorem wp_and {Q' : α → σ → Prop} (h : wp C p Q s)
    (h' : wp (fun _ => True) p Q' s) : wp C p (fun x s => Q x s ∧ Q' x s) s :=
  ⟨h.1, h.2, h'.2⟩

theorem wp_stops {s' : σ} (h : wp C p Q s) (hs : C s) (hstop : p.Stops s s') : C s' := by
  obtain rfl | hmem := hstop
  · exact hs
  · exact h.1 s' hmem

theorem stops_last (p : Proc σ α) (s : σ) : p.Stops s ((p s).last s) := by
  rw [Stops, Trail.last, getLastD_eq_getLast?]
  cases h : (p s).cuts.getLast? with
  | none => exact .inl rfl
  | some x => exact .inr (mem_of_getLast? h)

/-! ## Stopping after so many steps -/

/-- The state after `n` steps, or at the end. -/
def stopAt (p : Proc σ α) (n : ℕ) (s : σ) : σ := Trail.last ⟨(p s).cuts.take n, ()⟩ s

@[simp] theorem stopAt_zero (p : Proc σ α) (s : σ) : p.stopAt 0 s = s := rfl

theorem stopAt_of_nil {s : σ} (h : (p s).cuts = []) :
    p.stopAt n s = s := by
  rw [stopAt, h, take_nil]
  rfl

@[simp] theorem stopAt_pure (x : α) (n : ℕ) (s : σ) : (pure x : Proc σ α).stopAt n s = s :=
  stopAt_of_nil rfl

theorem stopAt_of_le {s : σ} (h : (p s).cuts.length ≤ n) :
    p.stopAt n s = (p s).last s := by
  rw [stopAt, take_of_length_le h]
  rfl

theorem stopAt_stops (p : Proc σ α) (n : ℕ) (s : σ) : p.Stops s (p.stopAt n s) := by
  rw [stopAt, Stops, Trail.last, getLastD_eq_getLast?]
  cases h : ((p s).cuts.take n).getLast? with
  | none => exact .inl rfl
  | some x => exact .inr (mem_of_mem_take (mem_of_getLast? h))

theorem stopAt_of_pos {C : σ → Prop} (h : ∀ s' ∈ (p s).cuts, C s')
    (hn : 0 < n) (hcuts : (p s).cuts ≠ []) : C (p.stopAt n s) := by
  rw [stopAt, Trail.last, getLastD_eq_getLast?]
  cases hlast : ((p s).cuts.take n).getLast? with
  | none =>
    rw [getLast?_eq_none_iff, take_eq_nil_iff] at hlast
    exact absurd hlast (not_or.mpr ⟨by omega, hcuts⟩)
  | some x => exact h x (mem_of_mem_take (mem_of_getLast? hlast))

theorem stopAt_bind (p : Proc σ α) (f : α → Proc σ β) (n : ℕ) (s : σ) :
    (p >>= f).stopAt n s =
      if n ≤ (p s).cuts.length then p.stopAt n s
      else (f (p s).value).stopAt (n - (p s).cuts.length) ((p s).last s) := by
  rw [stopAt, cuts_bind, take_append]
  split
  · next hle =>
    rw [Nat.sub_eq_zero_of_le hle, take_zero, append_nil, stopAt]
  · next hlt =>
    rw [take_of_length_le (by omega), stopAt]
    exact Trail.last_append (p s) ⟨_, ()⟩ s

theorem stopAt_gets_bind (f : σ → α) (g : α → Proc σ β) (n : ℕ) (s : σ) :
    (gets f >>= g).stopAt n s = (g (f s)).stopAt n s := rfl

theorem stopAt_bind_pure (p : Proc σ α) (f : α → β) (n : ℕ) (s : σ) :
    (p >>= fun x => pure (f x)).stopAt n s = p.stopAt n s := by
  have hcuts : ((p >>= fun x => (pure (f x) : Proc σ β)) s).cuts = (p s).cuts :=
    append_nil _
  rw [stopAt, hcuts, stopAt]

/-- A procedure whose value nobody asks for. -/
def void (p : Proc σ α) : Proc σ Unit := fun s => ⟨(p s).cuts, ()⟩

theorem wp_stopAt (h : wp C p Q s) (hs : C s) (n : ℕ) :
    C (p.stopAt n s) :=
  wp_stops h hs (stopAt_stops p n s)

theorem stopAt_bind_after {f : α → Proc σ β} {q : ℕ}
    (hlen : q < (p s).cuts.length) (hp : ∀ n, q < n → C (p.stopAt n s))
    (hf : ∀ x t, C t → wp C (f x) (fun _ _ => True) t) :
    q < ((p >>= f) s).cuts.length ∧ ∀ n, q < n → C ((p >>= f).stopAt n s) := by
  constructor
  · rw [cuts_bind, length_append]
    omega
  · intro n hn
    rw [stopAt_bind]
    split
    · exact hp n hn
    · have hlast : C ((p s).last s) := by
        rw [← stopAt_of_le (Nat.le_refl _)]
        exact hp _ hlen
      exact wp_stopAt (hf _ _ hlast) hlast _

/-! ## Loops -/

def forEach {ι : Type} (body : ι → Proc σ Unit) : List ι → Proc σ Unit
  | [] => pure ()
  | i :: is => do
    body i
    forEach body is

theorem wp_forEach {ι : Type} {body : ι → Proc σ Unit} {is : List ι} (I : σ → Prop)
    (hbody : ∀ i ∈ is, ∀ s, I s → wp C (body i) (fun _ => I) s) (hs : I s) :
    wp C (forEach body is) (fun _ => I) s := by
  induction is generalizing s with
  | nil => exact (wp_pure _ _).mpr hs
  | cons i is ih =>
    rw [forEach, wp_bind]
    refine wp_mono (hbody i mem_cons_self s hs) (fun _ h => h) ?_
    intro _ s' hs'
    exact ih (fun j hj => hbody j (mem_cons_of_mem i hj)) hs'

theorem wp_forEach_step {ι : Type} (f : ι → σ → σ) (is : List ι) (s : σ) :
    wp (fun _ => True) (forEach (fun i => step (f i)) is)
      (fun _ s' => s' = is.foldl (fun s i => f i s) s) s := by
  induction is generalizing s with
  | nil => exact (wp_pure _ _).mpr rfl
  | cons i is ih =>
    rw [forEach, wp_bind, wp_step]
    exact ⟨trivial, ih (f i s)⟩

end Proc

end BrixCache
