import Mathlib.Data.List.Infix
import Mathlib.Data.Set.Insert

/-!
# Mount points

A set of mount points cuts a tree of paths into regions: a path belongs to the nearest mount point
above it, the root where there is none. What the nearest mount point is depends only on the mount
points above the path, so that adding or removing one changes the region of the paths below it
alone.
-/

namespace BrixCache

open List

namespace Mounts

variable {α : Type} {M N : Set (List α)} {m m' p q : List α}

/-- `p` is below `q`, and not `q` itself. -/
def Under (q p : List α) : Prop := q <+: p ∧ q ≠ p

instance [DecidableEq α] (q p : List α) : Decidable (Under q p) :=
  inferInstanceAs (Decidable (q <+: p ∧ q ≠ p))

theorem Under.length (h : Under q p) : q.length < p.length := by
  rcases Nat.lt_or_ge q.length p.length with hlt | hge
  · exact hlt
  · exact absurd (h.1.eq_of_length_le hge) h.2

theorem Under.mono (h : Under m q) (h' : q <+: p) : Under m p :=
  ⟨h.1.trans h', fun he => by
    have := h.length
    have := h'.length_le
    rw [he] at *
    omega⟩

theorem Under.prefix_trans (h : m <+: q) (h' : Under q p) : Under m p :=
  ⟨h.trans h'.1, fun he => by
    have := h'.length
    have := h.length_le
    rw [he] at *
    omega⟩

theorem not_under_nil : ¬Under q [] := fun h => Nat.not_lt_zero _ h.length

theorem under_snoc (q : List α) (a : α) : Under q (q ++ [a]) :=
  ⟨prefix_append _ _, fun h => by simpa using congrArg List.length h⟩

theorem under_snoc_iff {a : α} : Under q (p ++ [a]) ↔ q <+: p := by
  constructor
  · intro h
    rcases prefix_concat_iff.mp h.1 with he | hpre
    · exact absurd he h.2
    · exact hpre
  · exact fun h => Under.prefix_trans h (under_snoc p a)

theorem exists_child_of_under (h : Under q p) : ∃ a, q ++ [a] <+: p := by
  obtain ⟨t, rfl⟩ := h.1
  cases t with
  | nil => exact absurd (append_nil q).symm h.2
  | cons a t => exact ⟨a, t, by simp⟩

theorem comparable (h : m <+: p) (h' : m' <+: p) : m <+: m' ∨ Under m' m := by
  rcases List.prefix_or_prefix_of_prefix h h' with hpre | hpre
  · exact .inl hpre
  · by_cases he : m' = m
    · exact .inl (he ▸ prefix_refl _)
    · exact .inr ⟨hpre, he⟩

/-- `m` is the mount point nearest above `p`. -/
structure Over (M : Set (List α)) (m p : List α) : Prop where
  under : Under m p
  mount : m = [] ∨ m ∈ M
  nearest : ∀ q ∈ M, Under q p → q <+: m

theorem Over.unique (h : Over M m p) (h' : Over M m' p) : m = m' := by
  have hle : ∀ {m m' : List α}, Over M m p → Over M m' p → m <+: m' := fun {m m'} h h' => by
    rcases h.mount with rfl | hm
    · exact List.nil_prefix
    · exact h'.nearest m hm h.under
  exact (hle h h').eq_of_length_le (hle h' h).length_le

theorem Over.congr (h : Over M m p) (hMN : ∀ q, Under q p → (q ∈ M ↔ q ∈ N)) : Over N m p :=
  ⟨h.under, h.mount.imp id (hMN m h.under).mp, fun q hq hu => h.nearest q ((hMN q hu).mpr hq) hu⟩

theorem over_congr (hMN : ∀ q, Under q p → (q ∈ M ↔ q ∈ N)) : Over M m p ↔ Over N m p :=
  ⟨fun h => h.congr hMN, fun h => h.congr fun q hq => (hMN q hq).symm⟩

theorem over_snoc_of_mem {a : α} (h : p = [] ∨ p ∈ M) : Over M p (p ++ [a]) :=
  ⟨under_snoc p a, h, fun _ _ hu => under_snoc_iff.mp hu⟩

theorem over_snoc_of_not_mem {a : α} (hp : p ∉ M) (h : Over M m p) : Over M m (p ++ [a]) := by
  refine ⟨h.under.mono (prefix_append _ _), h.mount, fun q hq hu => ?_⟩
  have hpre := under_snoc_iff.mp hu
  exact h.nearest q hq ⟨hpre, fun he => hp (he ▸ hq)⟩

theorem Over.extend (h : Over M m p) (hpq : Under p q)
    (hfree : ∀ r ∈ M, p <+: r → ¬Under r q) : Over M m q := by
  refine ⟨h.under.mono hpq.1, h.mount, fun r hr hu => ?_⟩
  rcases comparable hpq.1 hu.1 with hle | hlt
  · exact absurd hu (hfree r hr hle)
  · exact h.nearest r hr hlt

/-! ## A mount point more -/

theorem over_insert_of_not_under (h : ¬Under q p) : Over (insert q M) m p ↔ Over M m p := by
  refine over_congr fun r hr => ?_
  rw [Set.mem_insert_iff]
  refine ⟨fun hor => hor.resolve_left fun he => h (he ▸ hr), .inr⟩

theorem over_insert_self (h : Over M m p) (hq : Under q p) (hm : Under m q) :
    Over (insert q M) q p := by
  refine ⟨hq, .inr (Set.mem_insert _ _), fun r hr hu => ?_⟩
  rcases Set.mem_insert_iff.mp hr with rfl | hr
  · exact prefix_refl _
  · exact (h.nearest r hr hu).trans hm.1

theorem over_insert_of_prefix (h : Over M m p) (hm : q <+: m) : Over (insert q M) m p := by
  refine ⟨h.under, h.mount.imp id (Set.mem_insert_of_mem _), fun r hr hu => ?_⟩
  rcases Set.mem_insert_iff.mp hr with rfl | hr
  · exact hm
  · exact h.nearest r hr hu

/-! ## Mount points at and below a path are removed -/

/-- The mount points that are not at or below a path -/
def clear (M : Set (List α)) (p : List α) : Set (List α) := {m ∈ M | ¬p <+: m}

@[simp] theorem mem_clear : m ∈ clear M p ↔ m ∈ M ∧ ¬p <+: m := Iff.rfl

end Mounts

end BrixCache
