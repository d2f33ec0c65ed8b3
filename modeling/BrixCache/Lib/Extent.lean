import Mathlib.Tactic.Common

/-!
# Half-open extents

A non-empty range `[lo, hi)` of naturals, and the hull of a list of them: the
least extent that covers them all, none for the empty list.
-/

namespace BrixCache

/-- A non-empty half-open range. -/
@[ext]
structure Extent : Type where
  lo : ℕ
  hi : ℕ
  lt : lo < hi
  deriving DecidableEq

namespace Extent

/-- `b` is in the range. -/
def Mem (b : ℕ) (e : Extent) : Prop := e.lo ≤ b ∧ b < e.hi

/-- The least range covering both. -/
def join (e f : Extent) : Extent :=
  ⟨min e.lo f.lo, max e.hi f.hi, by
    have := e.lt
    omega⟩

/-- `e` widened over what is there already. -/
def joinOption (e : Extent) : Option Extent → Extent
  | none => e
  | some f => e.join f

/-- The least range covering a list of them. -/
def hull : List Extent → Option Extent
  | [] => none
  | e :: es => some (e.joinOption (hull es))

@[simp] theorem hull_nil : hull [] = none := rfl

@[simp] theorem hull_cons (e : Extent) (es : List Extent) :
    hull (e :: es) = some (e.joinOption (hull es)) := rfl

theorem mem_join_left {b : ℕ} {e : Extent} (f : Extent) (h : Mem b e) : Mem b (e.join f) := by
  obtain ⟨hlo, hhi⟩ := h
  exact ⟨Nat.le_trans (Nat.min_le_left _ _) hlo, Nat.lt_of_lt_of_le hhi (Nat.le_max_left _ _)⟩

theorem mem_join_right {b : ℕ} (e : Extent) {f : Extent} (h : Mem b f) : Mem b (e.join f) := by
  obtain ⟨hlo, hhi⟩ := h
  exact ⟨Nat.le_trans (Nat.min_le_right _ _) hlo, Nat.lt_of_lt_of_le hhi (Nat.le_max_right _ _)⟩

theorem mem_hull {b : ℕ} {e : Extent} {es : List Extent} (he : e ∈ es) (hb : Mem b e) :
    ∃ h, hull es = some h ∧ Mem b h := by
  induction es with
  | nil => cases he
  | cons f es ih =>
    refine ⟨_, rfl, ?_⟩
    rcases List.mem_cons.mp he with rfl | he'
    · rcases hull es with _ | h
      · exact hb
      · exact mem_join_left h hb
    · obtain ⟨h, hh, hmem⟩ := ih he'
      rw [hh]
      exact mem_join_right f hmem

theorem hull_eq_none {es : List Extent} : hull es = none ↔ es = [] := by
  cases es with
  | nil => exact ⟨fun _ => rfl, fun _ => rfl⟩
  | cons e es => exact ⟨fun h => absurd h (Option.some_ne_none _), fun h => absurd h (by simp)⟩

end Extent

end BrixCache
