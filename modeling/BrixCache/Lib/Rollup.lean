import Mathlib.Algebra.BigOperators.Group.List.Basic
import Mathlib.Algebra.Ring.Int.Defs
import Mathlib.Algebra.Ring.Nat

/-!
# Totals kept by triggers

A table of rows, each of which counts in some scopes with a weight, and a second table
with the sum of the weights and the number of the rows of each scope. Adding a row
charges its scopes and removing one discharges them; a scope that no row has been in
has no entry, and discharging it does nothing. The sums are integers of 64 bits, and
one that leaves them is no integer any more. As long as none does, charging what is
added and discharging what is removed keeps the totals exact.
-/

namespace BrixCache

open List

/-- An integer that fits 64 bits. -/
def InSqlRange (n : ℤ) : Prop := -2 ^ 63 ≤ n ∧ n < 2 ^ 63

instance (n : ℤ) : Decidable (InSqlRange n) := inferInstanceAs (Decidable (_ ∧ _))

/-- `+` on a column of integers: `none` where the sum has become a floating-point number. -/
def sqlAdd (a : Option ℤ) (b : ℤ) : Option ℤ :=
  a.bind fun n => if InSqlRange (n + b) then some (n + b) else none

/-- `SUM`: `none` for its error "integer overflow". -/
def sqlSum (l : List ℤ) : Option ℤ := l.foldl sqlAdd (some 0)

theorem sqlAdd_some {n b : ℤ} (h : InSqlRange (n + b)) : sqlAdd (some n) b = some (n + b) :=
  if_pos h

theorem foldl_sqlAdd_none (l : List ℤ) : l.foldl sqlAdd none = none := by
  induction l with
  | nil => rfl
  | cons b l ih => exact ih

theorem foldl_sqlAdd_eq_some {l : List ℤ} {n s : ℤ} (h : l.foldl sqlAdd (some n) = some s) :
    s = n + l.sum := by
  induction l generalizing n with
  | nil =>
    cases h
    simp
  | cons b l ih =>
    rw [foldl_cons, sqlAdd, Option.bind_some] at h
    split at h
    · rw [ih h, sum_cons, add_assoc]
    · rw [foldl_sqlAdd_none] at h
      cases h

theorem sqlSum_eq_some {l : List ℤ} {s : ℤ} (h : sqlSum l = some s) : s = l.sum := by
  simpa using foldl_sqlAdd_eq_some h

/-! ## The table of totals -/

/-- The bytes and the inodes of a scope. -/
structure Tally : Type where
  bytes : Option ℤ
  inodes : Option ℤ
  deriving DecidableEq

/-- Totals by scope, with no entry for a scope that no row has been in. -/
abbrev Rollup (κ : Type) : Type := κ → Option Tally

namespace Rollup

variable {κ ρ : Type} [DecidableEq κ]

/-- What a query answers: nothing, for a scope without an entry. -/
def read (t : Rollup κ) (k : κ) : Tally := (t k).getD ⟨some 0, some 0⟩

/-- The UPSERT of one scope. -/
def charge (b : ℤ) (t : Rollup κ) (k : κ) : Rollup κ :=
  match t k with
  | none => Function.update t k (some ⟨some b, some 1⟩)
  | some c => Function.update t k (some ⟨sqlAdd c.bytes b, sqlAdd c.inodes 1⟩)

/-- The UPDATE that takes one row from a scope. -/
def discharge (b : ℤ) (t : Rollup κ) (k : κ) : Rollup κ :=
  match t k with
  | none => t
  | some c => Function.update t k (some ⟨sqlAdd c.bytes (-b), sqlAdd c.inodes (-1)⟩)

/-- Rows that count in scopes, with a weight. -/
structure Weighing (ρ κ : Type) : Type where
  scopes : ρ → List κ
  weight : ρ → ℤ
  nodup : ∀ r, (scopes r).Nodup

namespace Weighing

variable (W : Weighing ρ κ)

def add (r : ρ) (t : Rollup κ) : Rollup κ := (W.scopes r).foldl (charge (W.weight r)) t

def remove (r : ρ) (t : Rollup κ) : Rollup κ := (W.scopes r).foldl (discharge (W.weight r)) t

def weights (k : κ) (rows : List ρ) : List ℤ :=
  (rows.filter fun r => k ∈ W.scopes r).map W.weight

/-- The totals of the rows: an entry for each scope they are in, and for one that always has
one. None where a sum overflows. -/
def rebuild (always : κ) (rows : List ρ) : Option (Rollup κ) :=
  let ks := always :: rows.flatMap W.scopes
  if ks.all fun k => (sqlSum (W.weights k rows)).isSome then
    some fun k =>
      if k ∈ ks then some ⟨sqlSum (W.weights k rows), some (W.weights k rows).length⟩ else none
  else none

/-- The table has every scope's sum and number of rows. -/
def Exact (t : Rollup κ) (rows : List ρ) : Prop :=
  ∀ k, t.read k = ⟨some (W.weights k rows).sum, some (W.weights k rows).length⟩

/-- No sum of some of the rows leaves the 64 bits, and neither does their number. -/
def Room (rows : List ρ) : Prop :=
  (rows.map fun r => (W.weight r).natAbs).sum < 2 ^ 63 ∧ rows.length < 2 ^ 63

instance (rows : List ρ) : Decidable (W.Room rows) := inferInstanceAs (Decidable (_ ∧ _))

variable {W} {t : Rollup κ} {rows rows' : List ρ} {r r' : ρ} {k : κ}

theorem weights_cons_of_mem (h : k ∈ W.scopes r) :
    W.weights k (r :: rows) = W.weight r :: W.weights k rows := by
  simp [weights, h]

theorem weights_cons_of_notMem (h : k ∉ W.scopes r) :
    W.weights k (r :: rows) = W.weights k rows := by
  simp [weights, h]

theorem weights_perm (h : rows.Perm rows') : (W.weights k rows).Perm (W.weights k rows') :=
  (h.filter _).map _

theorem Exact.perm (h : W.Exact t rows) (hperm : rows.Perm rows') : W.Exact t rows' := by
  intro k
  have hw : (W.weights k rows).Perm (W.weights k rows') := weights_perm hperm
  rw [h k, hw.sum_eq, hw.length_eq]

/-! ## Room -/

omit [DecidableEq κ] in
theorem Room.of_cons (h : W.Room (r :: rows)) : W.Room rows := by
  obtain ⟨hsum, hlen⟩ := h
  rw [map_cons, sum_cons] at hsum
  rw [length_cons] at hlen
  exact ⟨by omega, by omega⟩

omit [DecidableEq κ] in
theorem Room.perm (h : W.Room rows) (hperm : rows.Perm rows') : W.Room rows' := by
  rw [Room, ← (hperm.map _).sum_eq, ← hperm.length_eq]
  exact h

omit [DecidableEq κ] in
theorem Room.congr_head (h : W.Room (r :: rows)) (hw : W.weight r' = W.weight r) :
    W.Room (r' :: rows) := by
  rw [Room, map_cons, hw]
  exact h

theorem natAbs_weights_sum_le (k : κ) (rows : List ρ) :
    (W.weights k rows).sum.natAbs ≤ (rows.map fun r => (W.weight r).natAbs).sum := by
  induction rows with
  | nil => simp [weights]
  | cons r rows ih =>
    rw [map_cons, sum_cons]
    by_cases hk : k ∈ W.scopes r
    · rw [weights_cons_of_mem hk, sum_cons]
      exact Nat.le_trans (Int.natAbs_add_le _ _) (Nat.add_le_add_left ih _)
    · rw [weights_cons_of_notMem hk]
      exact Nat.le_trans ih (Nat.le_add_left _ _)

theorem length_weights_le (k : κ) (rows : List ρ) : (W.weights k rows).length ≤ rows.length := by
  rw [weights, length_map]
  exact length_filter_le _ _

theorem Room.sum_inRange (h : W.Room rows) (k : κ) : InSqlRange (W.weights k rows).sum := by
  have hle := natAbs_weights_sum_le (W := W) k rows
  have hlt := h.1
  constructor <;> omega

theorem Room.length_inRange (h : W.Room rows) (k : κ) :
    InSqlRange (W.weights k rows).length := by
  have hle := length_weights_le (W := W) k rows
  have hlt := h.2
  constructor <;> omega

/-! ## Adding and removing a row -/

theorem read_charge_of_ne {b : ℤ} {k' : κ} (h : k ≠ k') : (charge b t k').read k = t.read k := by
  rw [charge]
  cases t k' <;> simp [read, h]

theorem read_discharge_of_ne {b : ℤ} {k' : κ} (h : k ≠ k') :
    (discharge b t k').read k = t.read k := by
  rw [discharge]
  cases t k' <;> simp [read, h]

theorem read_charge_self {b s n : ℤ} (h : t.read k = ⟨some s, some n⟩) (hs : InSqlRange (s + b))
    (hn : InSqlRange (n + 1)) : (charge b t k).read k = ⟨some (s + b), some (n + 1)⟩ := by
  rw [charge]
  cases hk : t k with
  | none =>
    -- a scope without an entry reads as nothing, and the row is the first in it
    simp only [read, hk, Option.getD_none, Tally.mk.injEq, Option.some.injEq] at h
    simp [read, ← h.1, ← h.2]
  | some c =>
    simp only [read, hk, Option.getD_some] at h
    simp [read, h, sqlAdd_some hs, sqlAdd_some hn]

theorem read_discharge_self {b s n : ℤ} (h : t.read k = ⟨some s, some n⟩) (hpos : n ≠ 0)
    (hs : InSqlRange (s - b)) (hn : InSqlRange (n - 1)) :
    (discharge b t k).read k = ⟨some (s - b), some (n - 1)⟩ := by
  rw [discharge]
  cases hk : t k with
  | none =>
    simp only [read, hk, Option.getD_none, Tally.mk.injEq, Option.some.injEq] at h
    exact absurd h.2.symm hpos
  | some c =>
    simp only [read, hk, Option.getD_some] at h
    rw [Int.sub_eq_add_neg] at hs hn
    simp [read, h, sqlAdd_some hs, sqlAdd_some hn, Int.sub_eq_add_neg]

omit [DecidableEq κ] in
theorem read_foldl_of_notMem {f : Rollup κ → κ → Rollup κ}
    (hf : ∀ t k', k ≠ k' → (f t k').read k = t.read k) {ks : List κ} (h : k ∉ ks) :
    (ks.foldl f t).read k = t.read k := by
  induction ks generalizing t with
  | nil => rfl
  | cons k' ks ih =>
    obtain ⟨hk, hks⟩ := not_or.mp (mem_cons.not.mp h)
    rw [foldl_cons, ih hks, hf t k' hk]

theorem read_foldl_of_mem {f : Rollup κ → κ → Rollup κ}
    (hf : ∀ t k', k ≠ k' → (f t k').read k = t.read k) {c c' : Tally}
    (hself : ∀ t : Rollup κ, t.read k = c → (f t k).read k = c') {ks : List κ} (hnodup : ks.Nodup)
    (h : k ∈ ks) (ht : t.read k = c) : (ks.foldl f t).read k = c' := by
  induction ks generalizing t with
  | nil => cases h
  | cons k' ks ih =>
    obtain ⟨hk', hks⟩ := nodup_cons.mp hnodup
    rw [foldl_cons]
    by_cases hk : k = k'
    · subst hk
      rw [read_foldl_of_notMem hf hk', hself t ht]
    · have hmem : k ∈ ks := (mem_cons.mp h).resolve_left hk
      exact ih hks hmem (by rw [hf t k' hk, ht])

theorem Exact.add (h : W.Exact t rows) (hroom : W.Room (r :: rows)) :
    W.Exact (W.add r t) (r :: rows) := by
  intro k
  have hother : ∀ (t : Rollup κ) k', k ≠ k' → (charge (W.weight r) t k').read k = t.read k :=
    fun t k' hk => read_charge_of_ne hk
  by_cases hk : k ∈ W.scopes r
  · have hs := hroom.sum_inRange k
    have hn := hroom.length_inRange k
    rw [weights_cons_of_mem hk, sum_cons, add_comm] at hs
    rw [weights_cons_of_mem hk, length_cons] at hn
    rw [weights_cons_of_mem hk, sum_cons, length_cons, add_comm]
    exact read_foldl_of_mem hother (fun t ht => read_charge_self ht hs hn) (W.nodup r) hk (h k)
  · rw [weights_cons_of_notMem hk, ← h k]
    exact read_foldl_of_notMem hother hk

theorem Exact.remove (h : W.Exact t (r :: rows)) (hroom : W.Room rows) :
    W.Exact (W.remove r t) rows := by
  intro k
  have hother : ∀ (t : Rollup κ) k', k ≠ k' → (discharge (W.weight r) t k').read k = t.read k :=
    fun t k' hk => read_discharge_of_ne hk
  have hread := h k
  by_cases hk : k ∈ W.scopes r
  · have hs := hroom.sum_inRange k
    have hn := hroom.length_inRange k
    rw [weights_cons_of_mem hk, sum_cons, length_cons] at hread
    have hsum : W.weight r + (W.weights k rows).sum - W.weight r = (W.weights k rows).sum := by
      omega
    have hlen : ((W.weights k rows).length + 1 : ℕ) - (1 : ℤ) = (W.weights k rows).length := by
      omega
    rw [← hsum] at hs
    rw [← hlen] at hn
    rw [← hsum, ← hlen]
    refine read_foldl_of_mem hother ?_ (W.nodup r) hk hread
    intro t ht
    exact read_discharge_self ht (by omega) hs hn
  · rw [weights_cons_of_notMem hk] at hread
    rw [← hread]
    exact read_foldl_of_notMem hother hk

theorem Exact.replace (h : W.Exact t (r :: rows)) (hroom : W.Room (r' :: rows)) :
    W.Exact (W.add r' (W.remove r t)) (r' :: rows) :=
  (h.remove hroom.of_cons).add hroom

theorem rebuild_exact {always : κ} (h : W.rebuild always rows = some t) : W.Exact t rows := by
  rw [rebuild] at h
  split at h
  · next hall =>
    cases h
    intro k
    by_cases hk : k ∈ always :: rows.flatMap W.scopes
    · obtain ⟨s, hs⟩ := Option.isSome_iff_exists.mp (all_eq_true.mp hall k hk)
      have hsum := sqlSum_eq_some hs
      simp only [read, if_pos hk, Option.getD_some, hs, hsum]
    · have hnone : W.weights k rows = [] := by
        rw [weights, map_eq_nil_iff, filter_eq_nil_iff]
        intro r hr hin
        exact hk (mem_cons_of_mem _ (mem_flatMap.mpr ⟨r, hr, of_decide_eq_true hin⟩))
      simp only [read, if_neg hk, hnone, Option.getD_none, sum_nil, length_nil]
      rfl
  · cases h

end Weighing

end Rollup

end BrixCache
