import Mathlib.Data.List.Nodup

/-!
# Tables with a primary key

A table is the list of its rows, in no order that matters, and the statements on it
are those of a relational store: an insertion that another row's key refuses, a
replacement, a deletion, and an update that fails where two rows would have one key.
Rows keep different keys under all of them. A loop of updates that moves one key
after the other, as far as it succeeds, moves the rows all at once.
-/

namespace BrixCache

open List

variable {ρ κ : Type} [DecidableEq κ] {key : ρ → κ}

namespace Keyed

variable (key)

/-- No two rows have one key. -/
def Unique (rows : List ρ) : Prop := (rows.map key).Nodup

instance (rows : List ρ) : Decidable (Unique key rows) :=
  inferInstanceAs (Decidable (rows.map key).Nodup)

/-- `SELECT … WHERE key = k` -/
def find (k : κ) (rows : List ρ) : Option ρ := rows.find? fun r => key r = k

/-- `INSERT`: none where the key is taken. -/
def insert (r : ρ) (rows : List ρ) : Option (List ρ) :=
  if (find key (key r) rows).isSome then none else some (r :: rows)

/-- `DELETE … WHERE key = k` -/
def erase (k : κ) (rows : List ρ) : List ρ := rows.filter fun r => key r ≠ k

/-- `INSERT OR REPLACE` -/
def replace (r : ρ) (rows : List ρ) : List ρ := r :: erase key (key r) rows

/-- `UPDATE … WHERE p`: none where two rows would have one key. -/
def update (p : ρ → Bool) (f : ρ → ρ) (rows : List ρ) : Option (List ρ) :=
  let rows' := rows.map fun r => if p r then f r else r
  if Unique key rows' then some rows' else none

/-- One update after the other, of the rows with each of the keys. -/
def moveEach (f : ρ → ρ) : List κ → List ρ → Option (List ρ)
  | [], rows => some rows
  | k :: ks, rows =>
    match update key (fun r => key r = k) f rows with
    | none => none
    | some rows' => moveEach f ks rows'

variable {key} {rows rows' : List ρ} {r : ρ} {k : κ}

theorem find_eq_some (h : Unique key rows) : find key k rows = some r ↔ r ∈ rows ∧ key r = k := by
  constructor
  · intro hfind
    exact ⟨mem_of_find?_eq_some hfind, by simpa using find?_some hfind⟩
  · rintro ⟨hmem, rfl⟩
    cases hfind : find key (key r) rows with
    | none =>
      have hno : ¬decide (key r = key r) = true := find?_eq_none.mp hfind r hmem
      exact absurd (decide_eq_true rfl) hno
    | some r' =>
      have hkey : key r' = key r := by simpa using find?_some hfind
      rw [inj_on_of_nodup_map h (mem_of_find?_eq_some hfind) hmem hkey]

theorem find_eq_none : find key k rows = none ↔ ∀ r ∈ rows, key r ≠ k := by
  simp [find]

theorem find_cons_self : find key (key r) (r :: rows) = some r := by
  simp [find]

theorem find_cons_of_ne (h : key r ≠ k) : find key k (r :: rows) = find key k rows := by
  simp [find, h]

theorem find_erase_of_ne {k' : κ} (h : k' ≠ k) :
    find key k' (erase key k rows) = find key k' rows := by
  induction rows with
  | nil => rfl
  | cons r rows ih =>
    rw [erase, filter_cons]
    by_cases hk : key r = k
    · have hk' : key r ≠ k' := by
        rw [hk]
        exact h.symm
      simp only [hk, ne_eq, not_true_eq_false, decide_false, Bool.false_eq_true, if_false]
      rw [find_cons_of_ne hk']
      exact ih
    · simp only [ne_eq, hk, not_false_eq_true, decide_true, if_true]
      by_cases hk' : key r = k'
      · rw [← hk', find_cons_self, find_cons_self]
      · rw [find_cons_of_ne hk', find_cons_of_ne hk']
        exact ih

theorem find_map {f : ρ → ρ} {k' : κ} (h : ∀ r ∈ rows, key (f r) = k' ↔ key r = k) :
    find key k' (rows.map f) = (find key k rows).map f := by
  induction rows with
  | nil => rfl
  | cons r rows ih =>
    have ih := ih fun r' hr' => h r' (mem_cons_of_mem r hr')
    have hr := h r mem_cons_self
    rw [map_cons]
    by_cases hk : key r = k
    · have hfk := hr.mpr hk
      rw [← hk, find_cons_self, ← hfk, find_cons_self, Option.map_some]
    · rw [find_cons_of_ne (fun hfk => hk (hr.mp hfk)), find_cons_of_ne hk, ih]

theorem mem_erase : r ∈ erase key k rows ↔ r ∈ rows ∧ key r ≠ k := by
  simp [erase]

theorem Unique.erase (h : Unique key rows) (k : κ) : Unique key (erase key k rows) :=
  h.sublist (filter_sublist.map key)

theorem mem_replace {r' : ρ} :
    r' ∈ replace key r rows ↔ r' = r ∨ (r' ∈ rows ∧ key r' ≠ key r) := by
  rw [replace, mem_cons, mem_erase]

theorem Unique.replace (h : Unique key rows) (r : ρ) : Unique key (replace key r rows) := by
  refine nodup_cons.mpr ⟨?_, h.erase (key r)⟩
  intro hmem
  obtain ⟨r', hr', hkey⟩ := mem_map.mp hmem
  exact (mem_erase.mp hr').2 hkey

theorem insert_eq_some : insert key r rows = some rows' ↔
    (∀ r' ∈ rows, key r' ≠ key r) ∧ rows' = r :: rows := by
  rw [insert, ← find_eq_none]
  cases find key (key r) rows with
  | none => simp [eq_comm]
  | some r' => simp

omit [DecidableEq κ] in
theorem Unique.cons (h : Unique key rows) (hr : ∀ r' ∈ rows, key r' ≠ key r) :
    Unique key (r :: rows) := by
  refine nodup_cons.mpr ⟨?_, h⟩
  intro hmem
  obtain ⟨r', hr', hkey⟩ := mem_map.mp hmem
  exact hr r' hr' hkey

omit [DecidableEq κ] in
theorem Unique.filter_eq (h : Unique key rows) {p : ρ → Bool}
    (hp : ∀ r' ∈ rows, p r' = true → key r' = key r) (hr : r ∈ rows) (hpr : p r = true) :
    rows.filter p = [r] := by
  have hall : ∀ r' ∈ rows.filter p, r' = r := by
    intro r' hr'
    obtain ⟨hmem, hpr'⟩ := mem_filter.mp hr'
    exact inj_on_of_nodup_map h hmem hr (hp r' hmem hpr')
  have hnodup : (rows.filter p).Nodup := h.of_map.filter p
  have hin : r ∈ rows.filter p := mem_filter.mpr ⟨hr, hpr⟩
  match hrows : rows.filter p with
  | [] =>
    rw [hrows] at hin
    cases hin
  | [r'] => rw [hall r' (hrows ▸ mem_cons_self)]
  | r₁ :: r₂ :: rest =>
    have h₁ := hall r₁ (hrows ▸ mem_cons_self)
    have h₂ := hall r₂ (hrows ▸ mem_cons_of_mem _ mem_cons_self)
    rw [hrows, h₁, h₂] at hnodup
    exact absurd mem_cons_self (nodup_cons.mp hnodup).1

theorem update_eq_some {p : ρ → Bool} {f : ρ → ρ} (h : update key p f rows = some rows') :
    rows' = (rows.map fun r => if p r then f r else r) ∧ Unique key rows' := by
  rw [update] at h
  split at h
  · next hunique =>
    cases h
    exact ⟨rfl, hunique⟩
  · cases h

/-- Moving each key in turn is moving them all at once. -/
theorem moveEach_eq_some {f : ρ → ρ} {ks : List κ} (hunique : Unique key rows) (hks : ks.Nodup)
    (hmem : ∀ k ∈ ks, ∃ r ∈ rows, key r = k) (h : moveEach key f ks rows = some rows') :
    rows' = (rows.map fun r => if key r ∈ ks then f r else r) ∧ Unique key rows' := by
  induction ks generalizing rows with
  | nil =>
    cases h
    exact ⟨by simp, hunique⟩
  | cons k ks ih =>
    obtain ⟨hk, hks⟩ := nodup_cons.mp hks
    rw [moveEach] at h
    cases hup : update key (fun r => key r = k) f rows with
    | none =>
      rw [hup] at h
      cases h
    | some mid =>
      rw [hup] at h
      obtain ⟨hmid, hmidUnique⟩ := update_eq_some hup
      let g : ρ → ρ := fun r => if (decide (key r = k)) = true then f r else r
      have hmid' : mid = rows.map g := hmid
      have hstays : ∀ r ∈ rows, key r ∈ ks → g r = r := by
        intro r _ hr
        have hne : key r ≠ k := fun heq => hk (heq ▸ hr)
        simp [g, hne]
      have hrest : ∀ j ∈ ks, ∃ r ∈ mid, key r = j := by
        intro j hj
        obtain ⟨r, hr, rfl⟩ := hmem j (mem_cons_of_mem k hj)
        refine ⟨r, ?_, rfl⟩
        rw [hmid', mem_map]
        exact ⟨r, hr, hstays r hr hj⟩
      obtain ⟨heq, hunique'⟩ := ih hmidUnique hks hrest h
      refine ⟨?_, hunique'⟩
      rw [heq, hmid', map_map]
      apply map_congr_left
      intro r hr
      by_cases hrk : key r = k
      · -- a row that moves does not move onto a key that is still to move
        have hgr : g r = f r := by simp [g, hrk]
        have hout : key (f r) ∉ ks := by
          intro hin
          obtain ⟨r', hr', hkey⟩ := hmem _ (mem_cons_of_mem k hin)
          have hr'ks : key r' ∈ ks := hkey ▸ hin
          have hsame : key (g r') = key (g r) := by
            rw [hstays r' hr' hr'ks, hgr, hkey]
          have hmapped : (rows.map fun r => key (g r)).Nodup := by
            have hnodup : (mid.map key).Nodup := hmidUnique
            rwa [hmid', map_map] at hnodup
          have hrr : r' = r := inj_on_of_nodup_map hmapped hr' hr hsame
          rw [hrr, hrk] at hr'ks
          exact hk hr'ks
        simp [hgr, hrk, hout]
      · have hgr : g r = r := by simp [g, hrk]
        simp [hgr, hrk]

end Keyed

end BrixCache
