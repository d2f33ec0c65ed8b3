import BrixCache.Lib.NameTree

/-!
# One tree over the other

An upper tree lies over a lower one: its leaves are seen, its directories are merged with those
below them, and where it has nothing the lower tree shows. Some of the names of an upper directory
may be marks, which are not seen themselves and hide names of the directory below (`Marks`);
without marks the two trees are united.

A change at a path of the upper tree is a change at that path of what is seen. The rule
`overlay_modify_eq_union` is for two ways to build what is seen, one with marks and one that
changes the lower tree too: they agree after a change if they agree before it, and at the directory
that is changed.
-/

namespace BrixCache

open Function List

namespace NameTree

variable {ν α : Type} [DecidableEq ν]

/-- What the entries of an upper directory do to the directory below. -/
structure Marks (ν α : Type) [DecidableEq ν] : Type where
  isMark : ν → Bool
  /-- is a name below hidden? -/
  hides : (ν → NameTree ν α) → ν → Bool
  hides_update : ∀ (c : ν → NameTree ν α) (x : ν) (v : NameTree ν α), isMark x = false →
    hides (update c x v) = hides c
  hides_absent : ∀ x, hides (child absent) x = false

def noMarks : Marks ν α where
  isMark _ := false
  hides _ _ := false
  hides_update _ _ _ _ := rfl
  hides_absent _ := rfl

variable (M : Marks ν α)

/-- What is seen of an upper tree over a lower one. -/
def overlay : NameTree ν α → NameTree ν α → NameTree ν α
  | absent, B => B
  | leaf a, _ => leaf a
  | dir c, B => dir fun x =>
    if M.isMark x then (if M.hides c x then absent else B.child x)
    else overlay (c x) (if M.hides c x then absent else B.child x)

def beneath : NameTree ν α → NameTree ν α → ν → NameTree ν α
  | absent, B, x => B.child x
  | leaf _, _, _ => absent
  | dir c, B, x => if M.hides c x then absent else B.child x

/-- What shows of the lower tree at a path. -/
def beneathAt : NameTree ν α → NameTree ν α → List ν → NameTree ν α
  | _, B, [] => B
  | U, B, x :: p => beneathAt (U.child x) (beneath M U B x) p

/-- A tree with another below it. -/
def union (own lower : NameTree ν α) : NameTree ν α := overlay noMarks own lower

/-- No name of a path is a mark. -/
def Marks.Unmarked (p : List ν) : Prop := ∀ x ∈ p, M.isMark x = false

variable {M}

theorem unmarked_noMarks (p : List ν) : (noMarks : Marks ν α).Unmarked p := fun _ _ => rfl

variable {p : List ν} {x : ν} {U own B lower : NameTree ν α} {d : ν → NameTree ν α}

theorem Marks.Unmarked.of_append {q : List ν} (h : M.Unmarked (p ++ q)) : M.Unmarked p :=
  fun x hx => h x (mem_append_left q hx)

theorem Marks.Unmarked.head (h : M.Unmarked (x :: p)) : M.isMark x = false :=
  h x mem_cons_self

theorem Marks.Unmarked.tail (h : M.Unmarked (x :: p)) : M.Unmarked p :=
  fun y hy => h y (mem_cons_of_mem x hy)

theorem Marks.Unmarked.last (h : M.Unmarked (p ++ [x])) : M.isMark x = false :=
  h x (mem_append_right p mem_cons_self)

/-! ## What is seen at a path -/

@[simp] theorem overlay_absent (B : NameTree ν α) : overlay M absent B = B := by
  rw [overlay]

@[simp] theorem overlay_leaf (a : α) (B : NameTree ν α) : overlay M (leaf a) B = leaf a := by
  rw [overlay]

theorem child_overlay (U B : NameTree ν α) (hx : M.isMark x = false) :
    (overlay M U B).child x = overlay M (U.child x) (beneath M U B x) := by
  cases U with
  | absent | leaf a => simp [beneath]
  | dir c => simp [overlay, beneath, hx]

theorem get_overlay (U B : NameTree ν α) (hp : M.Unmarked p) :
    (overlay M U B).get p = overlay M (U.get p) (beneathAt M U B p) := by
  induction p generalizing U B with
  | nil => rfl
  | cons x p ih =>
    rw [get, child_overlay U B hp.head, ih _ _ hp.tail]
    rfl

theorem overlay_dir (c : ν → NameTree ν α) (B : NameTree ν α) :
    overlay M (dir c) B = dir (overlay M (dir c) B).child := by
  rw [overlay]
  rfl

theorem leaf_of_overlay_leaf {a : α} (h : overlay M U absent = leaf a) :
    U = leaf a := by
  cases U with
  | absent =>
    rw [overlay_absent] at h
    cases h
  | leaf b => rwa [overlay_leaf] at h
  | dir c =>
    rw [overlay_dir] at h
    cases h

theorem beneathAt_absent (U : NameTree ν α) (p : List ν) : beneathAt M U absent p = absent := by
  induction p generalizing U with
  | nil => rfl
  | cons x p ih =>
    have hx : beneath M U absent x = absent := by
      cases U <;> simp [beneath]
    rw [beneathAt, hx]
    exact ih _

theorem beneathAt_concat (U B : NameTree ν α) (p : List ν) (x : ν) :
    beneathAt M U B (p ++ [x]) = beneath M (U.get p) (beneathAt M U B p) x := by
  induction p generalizing U B with
  | nil => rfl
  | cons y p ih => exact ih _ _

theorem beneathAt_noMarks (lower : NameTree ν α) (h : own.get p = dir d) :
    beneathAt noMarks own lower p = lower.get p := by
  induction p generalizing own lower with
  | nil => rfl
  | cons x p ih =>
    cases own with
    | absent =>
      rw [get_absent] at h
      cases h
    | leaf a =>
      rw [get, child_leaf, get_absent] at h
      cases h
    | dir c => exact ih _ h

theorem union_absent (own : NameTree ν α) : own.union absent = own := by
  induction own with
  | absent | leaf a => rfl
  | dir c ih =>
    simp only [union, overlay, noMarks, child_absent] at ih ⊢
    congr 1
    funext x
    simpa using ih x

/-! ## What a change does to what is seen -/

theorem overlay_update (c : ν → NameTree ν α) (B : NameTree ν α) (v : NameTree ν α)
    (hx : M.isMark x = false) :
    overlay M (dir (update c x v)) B =
      dir (update (overlay M (dir c) B).child x
        (overlay M v (beneath M (dir c) B x))) := by
  simp only [overlay, M.hides_update c x v hx, beneath]
  congr 1
  funext y
  by_cases hy : y = x
  · subst hy
    simp [hx]
  · simp [hy]

theorem union_update (d : ν → NameTree ν α) (lower : NameTree ν α) (x : ν) (v : NameTree ν α) :
    union (dir (update d x v)) (setChild x absent lower) =
      dir (update (union (dir d) lower).child x v) := by
  have hlower (y : ν) : (setChild x absent lower).child y =
      if y = x then absent else lower.child y := by
    cases lower with
    | absent | leaf a => simp [setChild]
    | dir l =>
      by_cases hy : y = x
      · subst hy
        simp [setChild]
      · simp [setChild, hy]
  have hv := union_absent v
  simp only [union, overlay, noMarks, hlower] at hv ⊢
  congr 1
  funext y
  by_cases hy : y = x
  · subst hy
    simpa using hv
  · simp [hy]

theorem overlay_dir_child (B : NameTree ν α) (h : ∀ a, U ≠ leaf a) :
    overlay M (dir U.child) B = dir (overlay M U B).child := by
  cases U with
  | absent =>
    rw [overlay_absent, overlay]
    simp [M.hides_absent]
  | leaf a => exact absurd rfl (h a)
  | dir c => exact overlay_dir c B

theorem overlay_force (B : NameTree ν α) (hp : M.Unmarked p)
    (h : U.NoLeaf p) : overlay M (force p U) B = force p (overlay M U B) := by
  induction p generalizing U B with
  | nil => exact overlay_dir_child B h
  | cons x p ih =>
    have hdir := overlay_dir_child (M := M) B h.not_leaf
    have hchild : beneath M (dir U.child) B x = beneath M U B x := by
      cases U with
      | absent => simp [beneath, M.hides_absent]
      | leaf a => exact absurd rfl (h.not_leaf a)
      | dir c => rfl
    rw [force, overlay_update _ _ _ hp.head, hdir, hchild, ih _ hp.tail h.2, force,
      child_overlay U B hp.head]
    rfl

theorem overlay_modify (f : NameTree ν α → NameTree ν α) (B : NameTree ν α) {c : ν → NameTree ν α}
    (hp : M.Unmarked p) (h : U.get p = dir c) :
    overlay M (modify f p U) B =
      modify (fun _ => overlay M (f (dir c)) (beneathAt M U B p)) p (overlay M U B) := by
  induction p generalizing U B with
  | nil =>
    rw [get] at h
    rw [h]
    rfl
  | cons x p ih =>
    cases U with
    | absent =>
      rw [get_absent] at h
      cases h
    | leaf a =>
      rw [get, child_leaf, get_absent] at h
      cases h
    | dir d =>
      have hx := ih (U := d x) (beneath M (dir d) B x) hp.tail h
      have hchild := child_overlay (dir d) B hp.head
      rw [modify, overlay_update d B _ hp.head, hx, overlay_dir d B, modify, hchild]
      rfl

/-- A change below a directory commutes with the union. -/
theorem union_modify (f g : NameTree ν α → NameTree ν α)
    (lower : NameTree ν α) (h : own.get p = dir d)
    (hg : g absent = absent) :
    union (modify f p own) (modify g p lower) =
      modify (fun _ => union (f (dir d)) (g (lower.get p))) p (union own lower) := by
  induction p generalizing own lower with
  | nil =>
    rw [get] at h
    rw [h]
    rfl
  | cons x p ih =>
    cases own with
    | absent =>
      rw [get_absent] at h
      cases h
    | leaf a =>
      rw [get, child_leaf, get_absent] at h
      cases h
    | dir c =>
      have hlower : ∀ y, (modify g (x :: p) lower).child y =
          if y = x then modify g p (lower.child x) else lower.child y := by
        intro y
        cases lower with
        | absent | leaf a => simp [modify, modify_absent hg]
        | dir l =>
          by_cases hy : y = x
          · subst hy
            simp [modify]
          · simp [modify, hy]
      have hx := ih (lower.child x) h
      simp only [union, overlay, noMarks, modify, hlower, get] at hx ⊢
      congr 1
      funext y
      by_cases hy : y = x
      · subst hy
        simpa using hx
      · simp [hy]

theorem overlay_force_eq_union
    (hview : overlay M U B = union own lower) (hp : M.Unmarked p) (hU : U.NoLeaf p)
    (hown : own.NoLeaf p) : overlay M (force p U) B = union (force p own) lower := by
  rw [overlay_force B hp hU, hview, union, union, overlay_force lower (unmarked_noMarks p) hown]

theorem overlay_modify_eq_union {c : ν → NameTree ν α} (f h g : NameTree ν α → NameTree ν α)
    (hview : overlay M U B = union own lower) (hp : M.Unmarked p) (hU : U.get p = dir c)
    (hown : own.get p = dir d) (hg : g absent = absent)
    (hat : overlay M (f (dir c)) (beneathAt M U B p) = union (h (dir d)) (g (lower.get p))) :
    overlay M (modify f p U) B = union (modify h p own) (modify g p lower) := by
  rw [overlay_modify f B hp hU, union_modify h g lower hown hg, hview, hat]

theorem overlay_eq_union_at (hview : overlay M U B = union own lower) (hp : M.Unmarked p) :
    overlay M (U.get p) (beneathAt M U B p) =
      union (own.get p) (beneathAt noMarks own lower p) := by
  rw [← get_overlay U B hp, hview, union, get_overlay own lower (unmarked_noMarks p), union]

end NameTree

end BrixCache
