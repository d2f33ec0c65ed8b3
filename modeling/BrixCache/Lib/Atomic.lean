import BrixCache.Lib.Run

/-!
# Programs of atomic actions

Several parties work on one shared state. Each runs a program: a tree of actions, every one
atomic, that goes on by what the action answers. In between the others take their turns, so all a
party knows of the state is what it was answered so far. What it is careful about can then be said
of its program alone: before each action, of the past.
-/

namespace BrixCache

open Function

variable {A : Type} {R : A → Type} {β γ : Type}

/-- A program of actions `a`, each answered with an `R a`. -/
inductive Prog (A : Type) (R : A → Type) (β : Type) : Type where
  | ret (b : β)
  | act (a : A) (k : R a → Prog A R β)

/-- What a party did and was answered, the last first -/
abbrev Past (A : Type) (R : A → Type) : Type := List (Σ a, R a)

namespace Prog

protected def bind : Prog A R β → (β → Prog A R γ) → Prog A R γ
  | .ret b, f => f b
  | .act a k, f => .act a fun r => (k r).bind f

instance : Monad (Prog A R) where
  pure := .ret
  bind := Prog.bind

def does (a : A) : Prog A R (R a) := .act a .ret

/-! ## What is so before every action -/

/-- `ob` is so before each action, of the past and the action, and `Q` at the end. -/
def Wp (ob : Past A R → A → Prop) : Prog A R β → (Past A R → β → Prop) → Past A R → Prop
  | .ret b, Q, past => Q past b
  | .act a k, Q, past => ob past a ∧ ∀ r, (k r).Wp ob Q (⟨a, r⟩ :: past)

variable {ob : Past A R → A → Prop} {Q Q' : Past A R → β → Prop} {past : Past A R}

@[simp] theorem wp_pure (b : β) : (pure b : Prog A R β).Wp ob Q past ↔ Q past b := Iff.rfl

@[simp] theorem wp_does (a : A) {Q : Past A R → R a → Prop} :
    (does a).Wp ob Q past ↔ ob past a ∧ ∀ r, Q (⟨a, r⟩ :: past) r := Iff.rfl

@[simp] theorem wp_bind (p : Prog A R β) (f : β → Prog A R γ) {Q : Past A R → γ → Prop} :
    (p >>= f).Wp ob Q past ↔ p.Wp ob (fun past b => (f b).Wp ob Q past) past := by
  induction p generalizing past with
  | ret b => exact Iff.rfl
  | act a k ih => exact and_congr_right fun _ => forall_congr' fun r => ih r

theorem Wp.mono {p : Prog A R β} (h : p.Wp ob Q past) (hQ : ∀ past b, Q past b → Q' past b) :
    p.Wp ob Q' past := by
  induction p generalizing past with
  | ret b => exact hQ _ _ h
  | act a k ih => exact ⟨h.1, fun r => ih r (h.2 r)⟩

end Prog

/-! ## Parties -/

/-- A party: what it was asked, what it did so far, what is left to do -/
structure Party (ρ A : Type) (R : A → Type) : Type where
  req : ρ
  past : Past A R
  rest : Prog A R Unit

/-- A shared state and the parties at work on it -/
structure World (σ ρ A : Type) (R : A → Type) : Type where
  shared : σ
  party : ℕ → Option (Party ρ A R)

/-- A request arrives, a party takes its turn, a party is gone, or something else changes. -/
inductive Event (ρ χ ε : Type) : Type where
  | arrive (i : ℕ) (q : ρ)
  | turn (i : ℕ) (c : χ)
  | leave (i : ℕ)
  | beside (e : ε)

namespace World

variable {σ ρ χ ε : Type} (handler : ρ → Prog A R Unit)
  (perform : σ → (a : A) → χ → Option (R a × σ)) (env : σ → ε → Option σ)

def step (w : World σ ρ A R) : Event ρ χ ε → Option (World σ ρ A R)
  | .arrive i q =>
    if (w.party i).isSome then none
    else some { w with party := update w.party i (some ⟨q, [], handler q⟩) }
  | .turn i c =>
    match w.party i with
    | some ⟨q, past, .act a k⟩ =>
      match perform w.shared a c with
      | some (r, shared) =>
        some ⟨shared, update w.party i (some ⟨q, ⟨a, r⟩ :: past, k r⟩)⟩
      | none => none
    | _ => none
  | .leave i => some { w with party := update w.party i none }
  | .beside e => (env w.shared e).map fun shared => { w with shared }

/-- The systems as step relations -/
def Step (w : World σ ρ A R) (ev : Event ρ χ ε) (w' : World σ ρ A R) : Prop :=
  w.step handler perform env ev = some w'

variable {handler perform env} {w w' : World σ ρ A R}

theorem Step.cases {ev : Event ρ χ ε} (h : Step handler perform env w ev w') :
    (∃ i q, ev = .arrive i q ∧ w.party i = none ∧
        w' = { w with party := update w.party i (some ⟨q, [], handler q⟩) }) ∨
      (∃ i c q past a k r shared, ev = .turn i c ∧ w.party i = some ⟨q, past, .act a k⟩ ∧
        perform w.shared a c = some (r, shared) ∧
        w' = ⟨shared, update w.party i (some ⟨q, ⟨a, r⟩ :: past, k r⟩)⟩) ∨
      (∃ i, ev = .leave i ∧ w' = { w with party := update w.party i none }) ∨
      ∃ e shared, ev = .beside e ∧ env w.shared e = some shared ∧ w' = { w with shared } := by
  cases ev with
  | arrive i q =>
    rw [Step, step] at h
    split at h
    · cases h
    · next hi => exact .inl ⟨i, q, rfl, by simpa using hi, (Option.some.inj h).symm⟩
  | turn i c =>
    rw [Step, step] at h
    split at h
    · next q past a k hi =>
      split at h
      · next r shared hperf =>
        exact .inr (.inl
          ⟨i, c, q, past, a, k, r, shared, rfl, hi, hperf, (Option.some.inj h).symm⟩)
      · cases h
    · cases h
  | leave i => exact .inr (.inr (.inl ⟨i, rfl, (Option.some.inj h).symm⟩))
  | beside e =>
    obtain ⟨shared, henv, rfl⟩ := Option.map_eq_some_iff.mp h
    exact .inr (.inr (.inr ⟨e, shared, rfl, henv, rfl⟩))

/-- Every party is careful from here on. -/
def Careful (ob : ρ → Past A R → A → Prop) (w : World σ ρ A R) : Prop :=
  ∀ i p, w.party i = some p → p.rest.Wp (ob p.req) (fun _ _ => True) p.past

theorem Careful.step {ob : ρ → Past A R → A → Prop}
    (hhandler : ∀ q, (handler q).Wp (ob q) (fun _ _ => True) []) {ev : Event ρ χ ε}
    (hw : Careful ob w) (h : Step handler perform env w ev w') : Careful ob w' := by
  intro j p hp
  obtain ⟨i, q, rfl, -, rfl⟩ | ⟨i, c, q, past, a, k, r, shared, rfl, hi, -, rfl⟩ |
    ⟨i, rfl, rfl⟩ | ⟨e, shared, rfl, -, rfl⟩ := h.cases
  · obtain ⟨-, hp⟩ | ⟨-, hp⟩ := of_update_eq_some hp
    · exact Option.some.inj hp ▸ hhandler q
    · exact hw j p hp
  · obtain ⟨-, hp⟩ | ⟨-, hp⟩ := of_update_eq_some hp
    · exact Option.some.inj hp ▸ (hw i _ hi).2 r
    · exact hw j p hp
  · obtain ⟨-, hp⟩ | ⟨-, hp⟩ := of_update_eq_some hp
    · cases hp
    · exact hw j p hp
  · exact hw j p hp

theorem Careful.turn {ob : ρ → Past A R → A → Prop} (hw : Careful ob w) {i : ℕ} {q : ρ}
    {past : Past A R} {a : A} {k : R a → Prog A R Unit}
    (hi : w.party i = some ⟨q, past, .act a k⟩) : ob q past a :=
  (hw i _ hi).1

end World

end BrixCache
