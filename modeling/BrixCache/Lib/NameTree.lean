import Mathlib.Data.List.Basic

/-!
# Trees of names

A node of a tree is absent, a leaf, or a directory, which has a node for every name, most of them
absent. `modify` changes the node at a path, where there is one, and `force` makes the directories
of a path.
-/

namespace BrixCache

open Function List

/-- A tree with names `ν` and leaves `α`. -/
inductive NameTree (ν α : Type) : Type where
  | absent : NameTree ν α
  | leaf (a : α) : NameTree ν α
  | dir (child : ν → NameTree ν α) : NameTree ν α

namespace NameTree

variable {ν α : Type}

/-- A directory without entries. -/
def emptyDir : NameTree ν α := dir fun _ => absent

def isAbsent : NameTree ν α → Bool
  | absent => true
  | _ => false

def isDir : NameTree ν α → Bool
  | dir _ => true
  | _ => false

/-- The node of a name; only a directory has some. -/
def child : NameTree ν α → ν → NameTree ν α
  | dir c, x => c x
  | _, _ => absent

/-- The node at a path. -/
def get : NameTree ν α → List ν → NameTree ν α
  | t, [] => t
  | t, x :: p => (t.child x).get p

variable {t : NameTree ν α} {p : List ν}

theorem exists_of_isDir (h : t.isDir = true) : ∃ c, t = dir c := by
  cases t with
  | absent | leaf a => cases h
  | dir c => exact ⟨c, rfl⟩

@[simp] theorem child_absent (x : ν) : (absent : NameTree ν α).child x = absent := rfl

@[simp] theorem child_leaf (a : α) (x : ν) : (leaf a : NameTree ν α).child x = absent := rfl

@[simp] theorem child_dir (c : ν → NameTree ν α) (x : ν) : (dir c).child x = c x := rfl

@[simp] theorem get_absent (p : List ν) : (absent : NameTree ν α).get p = absent := by
  induction p with
  | nil => rfl
  | cons x p ih => exact ih

theorem get_concat (t : NameTree ν α) (p : List ν) (x : ν) :
    t.get (p ++ [x]) = (t.get p).child x := by
  induction p generalizing t with
  | nil => rfl
  | cons y p ih => exact ih _

theorem get_concat_ne_absent {x : ν}
    (h : t.get (p ++ [x]) ≠ absent) : ∃ c, t.get p = dir c ∧ c x ≠ absent := by
  rw [get_concat] at h
  rcases ht : t.get p with _ | a | c
  · rw [ht] at h
    exact absurd rfl h
  · rw [ht] at h
    exact absurd rfl h
  · rw [ht] at h
    exact ⟨c, rfl, h⟩

def NoLeaf (t : NameTree ν α) : List ν → Prop
  | [] => ∀ a, t ≠ leaf a
  | x :: p => (∀ a, t ≠ leaf a) ∧ (t.child x).NoLeaf p

theorem NoLeaf.not_leaf (h : t.NoLeaf p) (a : α) : t ≠ leaf a := by
  cases p with
  | nil => exact h a
  | cons x p => exact h.1 a

theorem noLeaf_iff :
    t.NoLeaf p ↔ ∀ q, q <+: p → ∀ a, t.get q ≠ leaf a := by
  induction p generalizing t with
  | nil =>
    constructor
    · intro h q hq
      rw [prefix_nil.mp hq]
      exact h
    · intro h
      exact h [] List.nil_prefix
  | cons x p ih =>
    rw [NoLeaf, ih]
    constructor
    · rintro ⟨hhere, hbelow⟩ q hq
      cases q with
      | nil => exact hhere
      | cons y q =>
        obtain ⟨hy, hq'⟩ := cons_prefix_cons.mp hq
        subst hy
        exact hbelow q hq'
    · intro h
      exact ⟨h [] List.nil_prefix, fun q hq => h (x :: q) (cons_prefix_cons.mpr ⟨rfl, hq⟩)⟩

theorem NoLeaf.concat {x : ν} (h : t.NoLeaf p)
    (hx : ∀ a, t.get (p ++ [x]) ≠ leaf a) : t.NoLeaf (p ++ [x]) := by
  induction p generalizing t with
  | nil => exact ⟨h, hx⟩
  | cons y p ih => exact ⟨h.1, ih h.2 hx⟩

theorem noLeaf_absent (p : List ν) : (absent : NameTree ν α).NoLeaf p := by
  induction p with
  | nil =>
    intro a ha
    cases ha
  | cons x p ih =>
    constructor
    · intro a ha
      cases ha
    · exact ih

section

variable [DecidableEq ν]

/-! ## Changes -/

/-- A directory with a node for a name. -/
def setChild (x : ν) (v : NameTree ν α) : NameTree ν α → NameTree ν α
  | dir c => dir (update c x v)
  | t => t

/-- A change at a path, if there is one. -/
def modify (f : NameTree ν α → NameTree ν α) : List ν → NameTree ν α → NameTree ν α
  | [], t => f t
  | x :: p, dir c => dir (update c x (modify f p (c x)))
  | _ :: _, t => t

/-- The directories of a path are made, where there are others things too. -/
def force : List ν → NameTree ν α → NameTree ν α
  | [], t => dir t.child
  | x :: p, t => dir (update t.child x (force p (t.child x)))

theorem force_emptyDir (p : List ν) : force p (emptyDir : NameTree ν α) = force p absent := by
  cases p with
  | nil | cons x p => rfl

theorem modify_absent {f : NameTree ν α → NameTree ν α} (hf : f absent = absent) (p : List ν) :
    modify f p absent = absent := by
  cases p with
  | nil => exact hf
  | cons x p => rfl

theorem get_force (t : NameTree ν α) (p : List ν) : (force p t).get p = dir (t.get p).child := by
  induction p generalizing t with
  | nil => rfl
  | cons x p ih =>
    rw [force, get, child_dir, update_self]
    exact ih _

theorem get_force_concat (t : NameTree ν α) (p : List ν) (x : ν) :
    (force p t).get (p ++ [x]) = t.get (p ++ [x]) := by
  rw [get_concat, get_concat, get_force]
  rfl

variable {c : ν → NameTree ν α} {p : List ν} {t : NameTree ν α} {x : ν}

theorem force_of_dir (h : t.get p = dir c) : force p t = t := by
  induction p generalizing t with
  | nil =>
    rw [get] at h
    rw [h]
    rfl
  | cons x p ih =>
    cases t with
    | absent =>
      rw [get_absent] at h
      cases h
    | leaf a =>
      rw [get, child_leaf, get_absent] at h
      cases h
    | dir d =>
      have hx : force p (d x) = d x := ih h
      calc
        force (x :: p) (dir d) = dir (update d x (force p (d x))) := rfl
        _ = dir d := by rw [hx, update_eq_self]

theorem force_concat (t : NameTree ν α) (p : List ν) (x : ν) :
    force (p ++ [x]) t =
      modify (fun u => dir (update u.child x (dir (u.child x).child))) p (force p t) := by
  induction p generalizing t with
  | nil => rfl
  | cons y p ih =>
    rw [cons_append, force, force, modify, ih, update_self, update_idem]

theorem force_concat_force (t : NameTree ν α) (p : List ν) (x : ν) :
    force (p ++ [x]) (force p t) = force (p ++ [x]) t := by
  rw [force_concat, force_concat, force_of_dir (get_force t p)]

theorem get_force_leaf {q : List ν} {a : α}
    (h : (force p t).get q = leaf a) : t.get q = leaf a := by
  induction p generalizing t q with
  | nil =>
    cases q with
    | nil => cases h
    | cons y q => exact h
  | cons x p ih =>
    cases q with
    | nil => cases h
    | cons y q =>
      rw [force, get, child_dir] at h
      by_cases hy : y = x
      · subst hy
        rw [update_self] at h
        have hq := ih h
        exact hq
      · rw [update_of_ne hy] at h
        exact h

/-- A removal makes no leaf. -/
theorem get_remove_leaf {q : List ν} {a : α}
    (h : (modify (setChild x absent) p t).get q = leaf a) : t.get q = leaf a := by
  induction p generalizing t q with
  | nil =>
    cases t with
    | absent | leaf b => exact h
    | dir c =>
      cases q with
      | nil => cases h
      | cons y q =>
        rw [modify, setChild, get, child_dir] at h
        by_cases hy : y = x
        · rw [hy, update_self, get_absent] at h
          cases h
        · rw [update_of_ne hy] at h
          exact h
  | cons z p ih =>
    cases t with
    | absent | leaf b => exact h
    | dir c =>
      cases q with
      | nil => cases h
      | cons y q =>
        rw [modify, get, child_dir] at h
        by_cases hy : y = z
        · subst hy
          rw [update_self] at h
          have hq := ih h
          exact hq
        · rw [update_of_ne hy] at h
          exact h

theorem get_modify_of_dir (f : NameTree ν α → NameTree ν α) (h : t.get p = dir c) :
    (modify f p t).get p = f (dir c) := by
  induction p generalizing t with
  | nil =>
    rw [get] at h
    rw [h]
    rfl
  | cons x p ih =>
    cases t with
    | absent =>
      rw [get_absent] at h
      cases h
    | leaf a =>
      rw [get, child_leaf, get_absent] at h
      cases h
    | dir d =>
      rw [modify, get, child_dir, update_self]
      exact ih h

theorem modify_modify (f g : NameTree ν α → NameTree ν α) (p : List ν) (t : NameTree ν α) :
    modify f p (modify g p t) = modify (fun u => f (g u)) p t := by
  induction p generalizing t with
  | nil => rfl
  | cons x p ih =>
    cases t with
    | absent | leaf a => rfl
    | dir c => rw [modify, modify, modify, update_self, update_idem, ih]

theorem setChild_setChild (x : ν) (v w : NameTree ν α) (t : NameTree ν α) :
    setChild x v (setChild x w t) = setChild x v t := by
  cases t with
  | absent | leaf a => rfl
  | dir c => rw [setChild, setChild, setChild, update_idem]

theorem modify_setChild_setChild (x : ν) (v w : NameTree ν α) (p : List ν) (t : NameTree ν α) :
    modify (setChild x v) p (modify (setChild x w) p t) = modify (setChild x v) p t := by
  rw [modify_modify]
  congr 1
  funext u
  exact setChild_setChild x v w u

theorem modify_congr {f g : NameTree ν α → NameTree ν α}
    (h : f (t.get p) = g (t.get p)) : modify f p t = modify g p t := by
  induction p generalizing t with
  | nil => exact h
  | cons x p ih =>
    cases t with
    | absent | leaf a => rfl
    | dir c =>
      have hx : modify f p (c x) = modify g p (c x) := ih h
      rw [modify, modify, hx]

theorem modify_id (p : List ν) (t : NameTree ν α) : modify (fun u => u) p t = t := by
  induction p generalizing t with
  | nil => rfl
  | cons x p ih =>
    cases t with
    | absent | leaf a => rfl
    | dir c => rw [modify, ih, update_eq_self]

theorem force_concat_of_not_dir (h : ((t.get p).child x).isDir = false) :
    force (p ++ [x]) t = modify (setChild x emptyDir) p (force p t) := by
  rw [force_concat]
  apply modify_congr
  have hnone : dir ((t.get p).child x).child = emptyDir := by
    rcases hx : (t.get p).child x with _ | a | c
    · rfl
    · rfl
    · rw [hx] at h
      cases h
  rw [get_force, setChild]
  change dir (update (t.get p).child x (dir ((t.get p).child x).child)) = _
  rw [hnone]

theorem force_concat_of_dir (h : (t.get p).child x = dir c) : force (p ++ [x]) t = force p t := by
  calc
    force (p ++ [x]) t = modify (fun u => u) p (force p t) := by
      rw [force_concat]
      apply modify_congr
      have hself : dir ((t.get p).child x).child = (t.get p).child x := by
        rw [h]
        rfl
      rw [get_force]
      congr 1
      change update (t.get p).child x (dir ((t.get p).child x).child) = (t.get p).child
      rw [hself, update_eq_self]
    _ = force p t := modify_id p _

end

end NameTree

end BrixCache
