import BrixCache.Lib.NameTree
import Mathlib.Data.List.Infix

/-!
# Trees with symbolic links

A file tree is a tree of names whose leaves are files and symbolic links. A path is walked
from a directory a step at a time, and a link is walked in its place, so many of them and no
more. What a walk comes to is never a link, and neither is anything above it. A walk of a
longer path begins with that of the shorter one, and so where the shorter one ends well and
the longer one finds nothing, the next name is missing in the directory, or a link.
-/

namespace BrixCache

open List

/-- A step of a path: `.`, `..` or a name. -/
inductive PathStep (ν : Type) : Type where
  | here : PathStep ν
  | up : PathStep ν
  | name : ν → PathStep ν
  deriving DecidableEq

/-- A file, or a link with its target, from the root or from the directory it is in. -/
inductive FileLeaf (ν : Type) : Type where
  | file : FileLeaf ν
  | link : (absolute : Bool) → List (PathStep ν) → FileLeaf ν

/-- Why a walk along names fails -/
inductive WalkError : Type where
  | enoent
  | enotdir
  | eloop
  | enametoolong
  deriving DecidableEq

abbrev FileTree (ν : Type) : Type := NameTree ν (FileLeaf ν)

namespace FileTree

open NameTree

variable {ν : Type}

/-- The steps from a directory, the first link left to `follow`. -/
def walk (follow : List ν → List (PathStep ν) → Except WalkError (List ν)) (t : FileTree ν) :
    List ν → List (PathStep ν) → Except WalkError (List ν)
  | here, [] => .ok here
  | here, s :: ss =>
    if (t.get here).isDir = false then .error .enotdir
    else
      match s with
      | .here => walk follow t here ss
      | .up => walk follow t here.dropLast ss
      | .name x =>
        match (t.get here).child x with
        | absent => .error .enoent
        | leaf (.link absolute steps) => follow (if absolute then [] else here) (steps ++ ss)
        | _ => walk follow t (here ++ [x]) ss

/-- The steps from a directory, with `n` links at most. -/
def resolve (t : FileTree ν) : ℕ → List ν → List (PathStep ν) → Except WalkError (List ν)
  | 0 => walk (fun _ _ => .error .eloop) t
  | n + 1 => walk (resolve t n) t

/-- Something is at `p`, and it is no link. -/
def Solid (t : FileTree ν) (p : List ν) : Prop :=
  t.get p ≠ absent ∧ ∀ absolute steps, t.get p ≠ leaf (.link absolute steps)

/-- A link is at `p`. -/
def IsLink (t : FileTree ν) (p : List ν) : Prop :=
  ∃ absolute steps, t.get p = leaf (.link absolute steps)

variable {t : FileTree ν} {here p q : List ν} {s : PathStep ν} {ss more : List (PathStep ν)} {x : ν}
  {n : ℕ}

/-! ## Paths in the tree -/

theorem get_append (t : FileTree ν) (p q : List ν) : t.get (p ++ q) = (t.get p).get q := by
  induction p generalizing t with
  | nil => rfl
  | cons y p ih => exact ih (t.child y)

theorem isDir_of_get_append (h : t.get (p ++ x :: q) ≠ absent) : (t.get p).isDir = true := by
  rw [get_append] at h
  cases hp : t.get p with
  | absent =>
    rw [hp, get_absent] at h
    exact absurd rfl h
  | leaf a =>
    rw [hp, NameTree.get, child_leaf, get_absent] at h
    exact absurd rfl h
  | dir c => rfl

theorem Solid.of_isDir (h : (t.get p).isDir = true) : Solid t p := by
  obtain ⟨c, hc⟩ := exists_of_isDir h
  rw [Solid, hc]
  exact ⟨nofun, fun _ _ => nofun⟩

theorem Solid.above (h : Solid t p) (hq : q <+: p) : Solid t q := by
  obtain ⟨rest, rfl⟩ := hq
  cases rest with
  | nil => rwa [append_nil] at h
  | cons x rest => exact .of_isDir (isDir_of_get_append h.1)

theorem Solid.not_isLink (h : Solid t p) : ¬IsLink t p := by
  rintro ⟨absolute, steps, hlink⟩
  exact h.2 absolute steps hlink

/-! ## One step -/

@[simp] theorem resolve_nil (t : FileTree ν) (n : ℕ) (here : List ν) :
    resolve t n here [] = .ok here := by
  cases n <;> rfl

def followLink (t : FileTree ν) (n : ℕ) (here : List ν) (ss : List (PathStep ν)) :
    Except WalkError (List ν) :=
  match n with
  | 0 => .error .eloop
  | n + 1 => resolve t n here ss

theorem resolve_cons (t : FileTree ν) (n : ℕ) (here : List ν) (s : PathStep ν)
    (ss : List (PathStep ν)) :
    resolve t n here (s :: ss) =
      if (t.get here).isDir = false then .error .enotdir
      else
        match s with
        | .here => resolve t n here ss
        | .up => resolve t n here.dropLast ss
        | .name x =>
          match (t.get here).child x with
          | absent => .error .enoent
          | leaf (.link absolute steps) =>
            followLink t n (if absolute then [] else here) (steps ++ ss)
          | _ => resolve t n (here ++ [x]) ss := by
  cases n <;> rfl

/-- The step of a walk that goes on: it stays, goes up, goes down, or takes a link. -/
inductive Goes (t : FileTree ν) (n : ℕ) (here : List ν) : PathStep ν → List ν → ℕ →
    List (PathStep ν) → Prop where
  | here : Goes t n here .here here n []
  | up : Goes t n here .up here.dropLast n []
  | down {x : ν} (hsolid : Solid t (here ++ [x])) : Goes t n here (.name x) (here ++ [x]) n []
  | link {x : ν} {absolute : Bool} {steps : List (PathStep ν)} {m : ℕ} (hn : n = m + 1) :
      Goes t n here (.name x) (if absolute then [] else here) m steps

/-- One name more: an error, or the walk from the next node -/
theorem resolve_step (t : FileTree ν) (n : ℕ) (here : List ν) (s : PathStep ν) :
    (∃ e, ∀ ss, resolve t n here (s :: ss) = .error e) ∨
      (t.get here).isDir = true ∧ ∃ next m steps, Goes t n here s next m steps ∧
        ∀ ss, resolve t n here (s :: ss) = resolve t m next (steps ++ ss) := by
  cases hdir : (t.get here).isDir with
  | false =>
    refine .inl ⟨.enotdir, fun ss => ?_⟩
    rw [resolve_cons, if_pos hdir]
  | true =>
    have hgo : ∀ ss, resolve t n here (s :: ss) = _ := fun ss => resolve_cons t n here s ss
    simp only [hdir, Bool.true_eq_false, if_false] at hgo
    cases s with
    | here => exact .inr ⟨rfl, here, n, [], .here, hgo⟩
    | up => exact .inr ⟨rfl, here.dropLast, n, [], .up, hgo⟩
    | name x =>
      have hget : t.get (here ++ [x]) = (t.get here).child x := get_concat t here x
      cases hchild : (t.get here).child x with
      | absent =>
        simp only [hchild] at hgo
        exact .inl ⟨.enoent, hgo⟩
      | leaf a =>
        simp only [hchild] at hgo
        cases a with
        | file =>
          have hsolid : Solid t (here ++ [x]) := by
            rw [Solid, hget, hchild]
            exact ⟨nofun, fun _ _ => nofun⟩
          exact .inr ⟨rfl, here ++ [x], n, [], .down hsolid, hgo⟩
        | link absolute steps =>
          cases n with
          | zero => exact .inl ⟨.eloop, hgo⟩
          | succ m => exact .inr ⟨rfl, _, m, steps, .link rfl, hgo⟩
      | dir c =>
        simp only [hchild] at hgo
        have hsolid : Solid t (here ++ [x]) := .of_isDir (by rw [hget, hchild]; rfl)
        exact .inr ⟨rfl, here ++ [x], n, [], .down hsolid, hgo⟩

variable {m : ℕ} {next : List ν} {steps : List (PathStep ν)}

theorem Goes.le (h : Goes t n here s next m steps) : m ≤ n := by
  cases h with
  | link hn => omega
  | _ => exact Nat.le_refl n

theorem Goes.solid (hroot : t.isDir = true) (hdir : (t.get here).isDir = true)
    (h : Goes t n here s next m steps) : Solid t next := by
  have hhere : Solid t here := .of_isDir hdir
  cases h with
  | here => exact hhere
  | up => exact hhere.above (List.dropLast_prefix here)
  | down hsolid => exact hsolid
  | link hn =>
    split
    · exact .of_isDir hroot
    · exact hhere

/-! ## Walks -/

theorem resolve_induct {P : ℕ → List ν → List (PathStep ν) → Prop} (hnil : ∀ n here, P n here [])
    (hcons : ∀ n here s ss, (∀ next, P n next ss) →
      (∀ m < n, ∀ next steps, P m next steps) → P n here (s :: ss))
    (n : ℕ) (here : List ν) (ss : List (PathStep ν)) : P n here ss := by
  induction n using Nat.strongRecOn generalizing here ss with
  | ind n ihn =>
    induction ss generalizing here with
    | nil => exact hnil n here
    | cons s ss ihs => exact hcons n here s ss ihs ihn

theorem Goes.cases {P : ℕ → List ν → List (PathStep ν) → Prop} (h : Goes t n here s next m steps)
    (hss : ∀ next, P n next ss) (hlinks : ∀ m < n, ∀ next steps, P m next steps) :
    P m next (steps ++ ss) := by
  cases h with
  | here | up | down => exact hss _
  | link hn => exact hlinks m (by omega) _ _

theorem resolve_solid (hroot : t.isDir = true) (hhere : Solid t here)
    (h : resolve t n here ss = .ok p) : Solid t p := by
  revert hhere h
  refine resolve_induct (P := fun n here ss => Solid t here → resolve t n here ss = .ok p →
    Solid t p) ?_ ?_ n here ss
  · intro n here hhere h
    rw [resolve_nil] at h
    exact Except.ok.inj h ▸ hhere
  · intro n here s ss ihs ihn _ h
    obtain ⟨e, he⟩ | ⟨hdir, next, m, steps, hgoes, heq⟩ := resolve_step t n here s
    · rw [he] at h
      cases h
    · rw [heq] at h
      have hwalk : Solid t next → resolve t m next (steps ++ ss) = .ok p → Solid t p :=
        hgoes.cases ihs ihn
      exact hwalk (hgoes.solid hroot hdir) h

theorem resolve_append (h : resolve t n here ss = .ok p) :
    ∃ m, m ≤ n ∧ ∀ more, resolve t n here (ss ++ more) = resolve t m p more := by
  revert h
  refine resolve_induct (P := fun n here ss => resolve t n here ss = .ok p →
    ∃ m, m ≤ n ∧ ∀ more, resolve t n here (ss ++ more) = resolve t m p more) ?_ ?_ n here ss
  · intro n here h
    rw [resolve_nil] at h
    cases h
    exact ⟨n, Nat.le_refl n, fun more => rfl⟩
  · intro n here s ss ihs ihn h
    obtain ⟨e, he⟩ | ⟨-, next, m, steps, hgoes, heq⟩ := resolve_step t n here s
    · rw [he] at h
      cases h
    · rw [heq] at h
      have hwalk : resolve t m next (steps ++ ss) = .ok p →
          ∃ k, k ≤ m ∧ ∀ more, resolve t m next (steps ++ ss ++ more) = resolve t k p more :=
        hgoes.cases ihs ihn
      obtain ⟨k, hk, hmore⟩ := hwalk h
      refine ⟨k, Nat.le_trans hk hgoes.le, fun more => ?_⟩
      rw [cons_append, heq, ← append_assoc, hmore]

theorem resolve_append_error {e : WalkError} (h : resolve t n here ss = .error e)
    (more : List (PathStep ν)) : resolve t n here (ss ++ more) = .error e := by
  revert h
  refine resolve_induct (P := fun n here ss => resolve t n here ss = .error e →
    resolve t n here (ss ++ more) = .error e) ?_ ?_ n here ss
  · intro n here h
    rw [resolve_nil] at h
    cases h
  · intro n here s ss ihs ihn h
    obtain ⟨e', he⟩ | ⟨-, next, m, steps, hgoes, heq⟩ := resolve_step t n here s
    · rw [he] at h
      rw [cons_append, he, h]
    · rw [heq] at h
      have hwalk : resolve t m next (steps ++ ss) = .error e →
          resolve t m next (steps ++ ss ++ more) = .error e := hgoes.cases ihs ihn
      rw [cons_append, heq, ← append_assoc, hwalk h]

theorem resolve_names (h : Solid t (here ++ p)) :
    resolve t n here (p.map .name) = .ok (here ++ p) := by
  induction p generalizing here with
  | nil => rw [map_nil, resolve_nil, append_nil]
  | cons x p ih =>
    have hdir : (t.get here).isDir = true := isDir_of_get_append h.1
    have hassoc : here ++ [x] ++ p = here ++ x :: p := by simp
    have hx : Solid t (here ++ [x]) := h.above ⟨p, hassoc⟩
    have hget : t.get (here ++ [x]) = (t.get here).child x := get_concat t here x
    have hrest : resolve t n (here ++ [x]) (p.map .name) = .ok (here ++ x :: p) := by
      rw [ih (hassoc.symm ▸ h), hassoc]
    rw [map_cons, resolve_cons, hdir]
    simp only [Bool.true_eq_false, if_false]
    cases hchild : (t.get here).child x with
    | absent => exact absurd (hget.trans hchild) hx.1
    | leaf a =>
      cases a with
      | file => exact hrest
      | link absolute steps => exact absurd (hget.trans hchild) (hx.2 absolute steps)
    | dir c => exact hrest

theorem exists_stop {e : WalkError} (h : resolve t n here (p.map .name) = .error e) :
    ∃ a x post q, p = a ++ x :: post ∧ resolve t n here (a.map .name) = .ok q ∧
      resolve t n here ((a ++ [x]).map .name) = .error e := by
  induction p using reverseRecOn with
  | nil =>
    rw [map_nil, resolve_nil] at h
    cases h
  | append_singleton p y ih =>
    cases hp : resolve t n here (p.map .name) with
    | ok q => exact ⟨p, y, [], q, rfl, hp, h⟩
    | error e' =>
      have hsame : e' = e := by
        have hmore := resolve_append_error hp [.name y]
        rw [map_append, map_singleton, hmore] at h
        exact Except.error.inj h
      obtain ⟨a, x, post, q, rfl, hok, hno⟩ := ih (hsame ▸ hp)
      exact ⟨a, x, post ++ [y], q, by simp, hok, hno⟩

theorem absent_or_isLink (h : resolve t n here [.name x] = .error .enoent) :
    t.get (here ++ [x]) = absent ∨ IsLink t (here ++ [x]) := by
  rw [resolve_cons] at h
  have hget : t.get (here ++ [x]) = (t.get here).child x := get_concat t here x
  split at h
  · cases h
  · cases hchild : (t.get here).child x with
    | absent => exact .inl (hget.trans hchild)
    | leaf a =>
      cases a with
      | file =>
        simp only [hchild, resolve_nil] at h
        cases h
      | link absolute steps => exact .inr ⟨absolute, steps, hget.trans hchild⟩
    | dir c =>
      simp only [hchild, resolve_nil] at h
      cases h

end FileTree

end BrixCache
