import BrixCache.Lib.Wire

/-!
# Sequential scanners

A scanner reads a list of symbols from the front, fails with an error or
returns a value and the symbols it left. Two facts about a scanner settle most
of what a format needs:

* `Reads r bs a` — `r` takes exactly `bs` off the front of anything and returns
  `a`. Composed with `Reads.bind` it is the round trip of a layout.
* `Stable r` — a success of `r` is not undone by appending symbols, they are
  only left over. Every scanner built from `take` by `bind` is stable.

Together they refuse every cut (`Stable.ne_ok_of_cut`): a stable scanner that
reads exactly `bs` fails on every strict prefix of `bs`.
-/

namespace BrixCache

open List

/-- A scanner: from the symbols still unread, an error or a value and the
symbols left. -/
abbrev Scanner (β ε α : Type) : Type := StateT (List β) (Except ε) α

namespace Scanner

variable {β ε α γ : Type}

/-- The next `n` symbols, or the error `e` when fewer are left. -/
def take (e : ε) (n : ℕ) : Scanner β ε (List β) := fun bs =>
  if bs.length < n then .error e else .ok (bs.take n, bs.drop n)

/-- Fail with `e`. -/
def fail (e : ε) : Scanner β ε α := fun _ => .error e

/-- The next word of a wire form, or the error `e` when too few bytes are
left. -/
def word [Wire α] (e : ε) : Scanner UInt8 ε α := do
  let bs ← take e (Wire.width α)
  pure (Wire.get bs)

theorem bind_apply (r : Scanner β ε α) (f : α → Scanner β ε γ) (bs : List β) :
    (r >>= f) bs =
      match r bs with
      | .error e => .error e
      | .ok (a, rest) => f a rest := by
  change Except.bind (r bs) _ = _
  rcases r bs with e | ⟨a, rest⟩ <;> rfl

@[simp] theorem pure_apply (a : α) (bs : List β) :
    (pure a : Scanner β ε α) bs = .ok (a, bs) := rfl

@[simp] theorem fail_apply (e : ε) (bs : List β) :
    (fail e : Scanner β ε α) bs = .error e := rfl

variable {bs : List β} {c : γ} {f : α → Scanner β ε γ} {r : Scanner β ε α} {e : ε} {a : α}
  {P : α → Prop}

theorem bind_eq_ok {rest : List β} (h : (r >>= f) bs = .ok (c, rest)) :
    ∃ a mid, r bs = .ok (a, mid) ∧ f a mid = .ok (c, rest) := by
  rw [bind_apply] at h
  rcases hr : r bs with e | ⟨a, mid⟩
  · rw [hr] at h
    cases h
  · rw [hr] at h
    exact ⟨a, mid, rfl, h⟩

theorem bind_error (h : r bs = .error e) : (r >>= f) bs = .error e := by
  rw [bind_apply, h]

/-! ## Exact reads -/

/-- `r` takes exactly `bs` off the front of anything and returns `a`. -/
def Reads (r : Scanner β ε α) (bs : List β) (a : α) : Prop :=
  ∀ rest, r (bs ++ rest) = .ok (a, rest)

theorem reads_pure (a : α) : Reads (pure a : Scanner β ε α) [] a := fun _ => rfl

theorem reads_take (e : ε) (bs : List β) : Reads (take e bs.length) bs bs := by
  intro rest
  have hlt : ¬ (bs ++ rest).length < bs.length := by
    rw [length_append]
    omega
  rw [take, if_neg hlt, take_left, drop_left]

theorem reads_take_of_length {n : ℕ} (h : bs.length = n) :
    Reads (take e n) bs bs := by
  rw [← h]
  exact reads_take e bs

theorem Reads.bind {cs : List β}
    (hr : Reads r bs a) (hf : Reads (f a) cs c) : Reads (r >>= f) (bs ++ cs) c := by
  intro rest
  rw [bind_apply, append_assoc, hr (cs ++ rest)]
  exact hf rest

theorem Reads.bind_nil (hr : Reads r bs a) (hf : Reads (f a) [] c) : Reads (r >>= f) bs c := by
  have h := hr.bind hf
  rwa [append_nil] at h

theorem Reads.bind_error {rest : List β} (hr : Reads r bs a) (hf : f a rest = .error e) :
    (r >>= f) (bs ++ rest) = .error e := by
  rw [bind_apply, hr rest]
  exact hf

theorem reads_word [Wire α] (e : ε) (a : α) : Reads (word e) (Wire.put a) a := by
  refine (reads_take_of_length (Wire.put_length a)).bind_nil ?_
  rw [Wire.get_put]
  exact reads_pure a

theorem Reads.run (h : Reads r bs a) :
    r bs = .ok (a, []) := by
  have := h []
  rwa [append_nil] at this

/-! ## Stability under appended symbols -/

/-- A success is not undone by appending symbols: they are left over. -/
def Stable (r : Scanner β ε α) : Prop :=
  ∀ (bs rest : List β) (a : α), r bs = .ok (a, rest) →
    ∀ more, r (bs ++ more) = .ok (a, rest ++ more)

theorem stable_pure (a : α) : Stable (pure a : Scanner β ε α) := by
  intro bs rest b h more
  rw [pure_apply] at h ⊢
  obtain ⟨rfl, rfl⟩ := Prod.mk.inj (Except.ok.inj h)
  rfl

theorem stable_fail (e : ε) : Stable (fail e : Scanner β ε α) := by
  intro bs rest a h more
  rw [fail_apply] at h
  cases h

theorem stable_take (e : ε) (n : ℕ) : Stable (take e n : Scanner β ε (List β)) := by
  intro bs rest a h more
  rw [take] at h ⊢
  by_cases hlt : bs.length < n
  · rw [if_pos hlt] at h
    cases h
  · rw [if_neg hlt] at h
    obtain ⟨rfl, rfl⟩ := Prod.mk.inj (Except.ok.inj h)
    have hlt' : ¬ (bs ++ more).length < n := by
      rw [length_append]
      omega
    rw [if_neg hlt', take_append_of_le_length (by omega),
      drop_append_of_le_length (by omega)]

theorem Stable.bind (hr : Stable r) (hf : ∀ a, Stable (f a)) : Stable (r >>= f) := by
  intro bs rest c h more
  obtain ⟨a, mid, h₁, h₂⟩ := bind_eq_ok h
  rw [bind_apply, hr _ _ _ h₁ more]
  exact hf a _ _ _ h₂ more

theorem Stable.ite {c : Prop} [Decidable c] {s : Scanner β ε α} (hr : Stable r)
    (hs : Stable s) : Stable (if c then r else s) := by
  by_cases hc : c
  · rw [if_pos hc]
    exact hr
  · rw [if_neg hc]
    exact hs

theorem stable_word [Wire α] (e : ε) : Stable (word e : Scanner UInt8 ε α) :=
  (stable_take e _).bind fun bs => stable_pure (Wire.get bs)

/-- **Cuts are refused**: a stable scanner that fails on `bs`, or reads it to
the end, fails on every strict prefix of `bs` — a success there would be left
with the symbols that were cut off. -/
theorem Stable.ne_ok_of_cut (hr : Stable r) {p q : List β}
    (hq : q ≠ []) (hwhole : ∀ a rest, r (p ++ q) = .ok (a, rest) → rest = [])
    (x : α × List β) : r p ≠ .ok x := by
  intro h
  obtain ⟨a, rest⟩ := x
  have hnil := hwhole a _ (hr _ _ _ h q)
  exact hq (append_eq_nil_iff.mp hnil).2

theorem Stable.ne_ok_of_take (hr : Stable r)
    (hreads : Reads r bs a) {k : ℕ} (hk : k < bs.length) (x : α × List β) :
    r (bs.take k) ≠ .ok x := by
  refine hr.ne_ok_of_cut (q := bs.drop k) ?_ ?_ x
  · intro hnil
    have hle := drop_eq_nil_iff.mp hnil
    omega
  · intro b rest h
    rw [take_append_drop, hreads.run] at h
    exact (Prod.mk.inj (Except.ok.inj h)).2.symm

/-! ## What a success returns -/

/-- Every value `r` returns satisfies `P`. -/
def Yields (P : α → Prop) (r : Scanner β ε α) : Prop :=
  ∀ (bs rest : List β) (a : α), r bs = .ok (a, rest) → P a

theorem yields_pure (h : P a) : Yields P (pure a : Scanner β ε α) := by
  intro bs rest b hb
  obtain ⟨rfl, -⟩ := Prod.mk.inj (Except.ok.inj hb)
  exact h

theorem yields_fail (e : ε) : Yields P (fail e : Scanner β ε α) := by
  intro bs rest a h
  cases h

theorem yields_true (r : Scanner β ε α) : Yields (fun _ => True) r := fun _ _ _ _ => trivial

theorem yields_take (e : ε) (n : ℕ) :
    Yields (fun bs => bs.length = n) (take e n : Scanner β ε (List β)) := by
  intro bs rest a h
  rw [take] at h
  by_cases hlt : bs.length < n
  · rw [if_pos hlt] at h
    cases h
  · rw [if_neg hlt] at h
    obtain ⟨rfl, -⟩ := Prod.mk.inj (Except.ok.inj h)
    rw [length_take, Nat.min_eq_left (Nat.le_of_not_lt hlt)]

theorem Yields.bind {Q : γ → Prop}
    (hr : Yields P r) (hf : ∀ a, P a → Yields Q (f a)) : Yields Q (r >>= f) := by
  intro bs rest c h
  obtain ⟨a, mid, h₁, h₂⟩ := bind_eq_ok h
  exact hf a (hr _ _ _ h₁) _ _ _ h₂

theorem Yields.ite {c : Prop} [Decidable c] {s : Scanner β ε α}
    (hr : c → Yields P r) (hs : ¬ c → Yields P s) : Yields P (if c then r else s) := by
  by_cases hc : c
  · rw [if_pos hc]
    exact hr hc
  · rw [if_neg hc]
    exact hs hc

end Scanner

end BrixCache
