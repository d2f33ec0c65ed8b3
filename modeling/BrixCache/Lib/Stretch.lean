import Mathlib.Data.Set.Card

/-!
# Stretches

Runs of cells at places on a line, kept in order and apart. A run is put between the others, and
is glued to those it touches; what stands on the line is then what stood there and the run, and
the number of runs is the number of places where something begins.
-/

namespace BrixCache

open List

variable {β : Type}

/-- Cells, from a place on. -/
structure Stretch (β : Type) : Type where
  lo : ℤ
  cells : List β

namespace Stretch

def hi (s : Stretch β) : ℤ := s.lo + s.cells.length

def at? (s : Stretch β) (x : ℤ) : Option β :=
  if x < s.lo then none else s.cells[(x - s.lo).toNat]?

def cellAt (ss : List (Stretch β)) (x : ℤ) : Option β := ss.findSome? (·.at? x)

/-- Two stretches one behind the other. -/
def glue (s t : Stretch β) : Stretch β := ⟨s.lo, s.cells ++ t.cells⟩

/-- `s` before others, and glued to the first of them if it touches it. -/
def glueRight (s : Stretch β) : List (Stretch β) → List (Stretch β)
  | [] => [s]
  | t :: back => if s.hi = t.lo then s.glue t :: back else s :: t :: back

/-- Others before some, the last of them glued to the first of these if it touches it. -/
def glueLeft (front ss : List (Stretch β)) : List (Stretch β) :=
  match front.getLast?, ss with
  | some a, s :: back => if a.hi = s.lo then front.dropLast ++ a.glue s :: back else front ++ ss
  | _, _ => front ++ ss

/-- `s` put between others. -/
def put (front : List (Stretch β)) (s : Stretch β) (back : List (Stretch β)) : List (Stretch β) :=
  glueLeft front (glueRight s back)

/-- In order, not empty, and none touches another. -/
structure Apart (ss : List (Stretch β)) : Prop where
  ne : ∀ s ∈ ss, s.cells ≠ []
  apart : ss.Pairwise fun s t => s.hi < t.lo

variable {s t : Stretch β} {ss front back : List (Stretch β)} {x : ℤ}

/-! ## Cells -/

theorem at?_isSome : (s.at? x).isSome ↔ s.lo ≤ x ∧ x < s.hi := by
  rw [at?, hi]
  split
  · simp only [Option.isSome_none, Bool.false_eq_true, false_iff]
    omega
  · rw [isSome_getElem?]
    omega

theorem at?_eq_none : s.at? x = none ↔ x < s.lo ∨ s.hi ≤ x := by
  rw [← Option.not_isSome_iff_eq_none, at?_isSome]
  omega

theorem lo_lt_hi (h : s.cells ≠ []) : s.lo < s.hi := by
  have hpos := length_pos_iff.mpr h
  rw [hi]
  omega

theorem hi_glue (h : s.hi = t.lo) : (s.glue t).hi = t.hi := by
  rw [hi] at h
  rw [hi, hi, glue, length_append]
  push_cast
  omega

theorem at?_glue (h : s.hi = t.lo) (x : ℤ) : (s.glue t).at? x = (s.at? x).or (t.at? x) := by
  rw [hi] at h
  by_cases hlo : x < s.lo
  · have ht : x < t.lo := by omega
    rw [at?, at?, at?, glue, if_pos hlo, if_pos hlo, if_pos ht]
    rfl
  · by_cases hmid : x < t.lo
    · have hlt : (x - s.lo).toNat < s.cells.length := by omega
      rw [at?, at?, at?, glue, if_neg hlo, if_neg hlo, if_pos hmid, Option.or_none,
        getElem?_append_left hlt]
    · have hle : s.cells.length ≤ (x - s.lo).toNat := by omega
      have hsub : (x - s.lo).toNat - s.cells.length = (x - t.lo).toNat := by omega
      rw [at?, at?, at?, glue, if_neg hlo, if_neg hlo, if_neg hmid,
        getElem?_append_right hle, hsub, getElem?_eq_none hle, Option.none_or]

theorem eq_of_at? (hs : s.cells ≠ []) (ht : t.cells ≠ []) (h : ∀ x, s.at? x = t.at? x) : s = t := by
  have hwide := lo_lt_hi hs
  have hwide' := lo_lt_hi ht
  have hlo : s.lo = t.lo := by
    have hle := at?_isSome.mp ((h s.lo) ▸ at?_isSome.mpr ⟨Int.le_refl _, hwide⟩)
    have hle' := at?_isSome.mp ((h t.lo).symm ▸ at?_isSome.mpr ⟨Int.le_refl _, hwide'⟩)
    omega
  have hcells : s.cells = t.cells := by
    refine ext_getElem? fun i => ?_
    have hi := h (s.lo + i)
    have hsub : (s.lo + (i : ℤ) - s.lo).toNat = i := by omega
    rw [at?, at?, ← hlo, if_neg (by omega), if_neg (by omega), hsub] at hi
    exact hi
  cases s
  cases t
  simp_all

theorem cellAt_cons (s : Stretch β) (ss : List (Stretch β)) (x : ℤ) :
    cellAt (s :: ss) x = (s.at? x).or (cellAt ss x) := by
  rw [cellAt, findSome?_cons]
  cases s.at? x <;> rfl

theorem cellAt_append (front back : List (Stretch β)) (x : ℤ) :
    cellAt (front ++ back) x = (cellAt front x).or (cellAt back x) :=
  findSome?_append

theorem cellAt_glueRight (s : Stretch β) (back : List (Stretch β)) (x : ℤ) :
    cellAt (glueRight s back) x = (s.at? x).or (cellAt back x) := by
  cases back with
  | nil => exact cellAt_cons s [] x
  | cons t back =>
    rw [glueRight]
    split
    · next h => rw [cellAt_cons, at?_glue h, Option.or_assoc, cellAt_cons]
    · exact cellAt_cons s (t :: back) x

theorem glueLeft_concat (front : List (Stretch β)) (a s : Stretch β) (back : List (Stretch β)) :
    glueLeft (front ++ [a]) (s :: back) =
      if a.hi = s.lo then front ++ a.glue s :: back else front ++ a :: s :: back := by
  simp [glueLeft]

theorem glueRight_cons (s : Stretch β) (back : List (Stretch β)) :
    ∃ s' back', glueRight s back = s' :: back' ∧ s'.lo = s.lo := by
  cases back with
  | nil => exact ⟨s, [], rfl, rfl⟩
  | cons t back =>
    rw [glueRight]
    split
    · exact ⟨_, _, rfl, rfl⟩
    · exact ⟨_, _, rfl, rfl⟩

theorem cellAt_glueLeft (front : List (Stretch β)) (s : Stretch β) (back : List (Stretch β))
    (x : ℤ) : cellAt (glueLeft front (s :: back)) x = (cellAt front x).or (cellAt (s :: back) x) := by
  obtain rfl | ⟨front, a, rfl⟩ := eq_nil_or_concat front
  · rfl
  · rw [concat_eq_append, glueLeft_concat]
    split
    · next h =>
      rw [cellAt_append, cellAt_append, cellAt_cons, cellAt_cons, cellAt_cons, at?_glue h]
      simp [cellAt, Option.or_assoc]
    · rw [← cellAt_append, append_assoc, singleton_append]

theorem cellAt_put (front : List (Stretch β)) (s : Stretch β) (back : List (Stretch β)) (x : ℤ) :
    cellAt (put front s back) x = ((cellAt front x).or (s.at? x)).or (cellAt back x) := by
  obtain ⟨s', back', heq, -⟩ := glueRight_cons s back
  rw [put, heq, cellAt_glueLeft, ← heq, cellAt_glueRight, Option.or_assoc]

theorem cellAt_isSome : (cellAt ss x).isSome ↔ ∃ s ∈ ss, s.lo ≤ x ∧ x < s.hi := by
  rw [cellAt, isSome_findSome?, any_eq_true]
  simp only [at?_isSome]

/-! ## Apart -/

/-- Where a run fits between others. -/
structure Fits (front : List (Stretch β)) (s : Stretch β) (back : List (Stretch β)) : Prop where
  apart : Apart (front ++ back)
  ne : s.cells ≠ []
  front_le : ∀ a ∈ front, a.hi ≤ s.lo
  le_back : ∀ b ∈ back, s.hi ≤ b.lo

theorem Apart.cons (hs : s.cells ≠ []) (hlt : ∀ t ∈ ss, s.hi < t.lo) (h : Apart ss) :
    Apart (s :: ss) :=
  ⟨forall_mem_cons.mpr ⟨hs, h.ne⟩, pairwise_cons.mpr ⟨hlt, h.apart⟩⟩

theorem Apart.append (hfront : Apart front) (hback : Apart back)
    (hlt : ∀ a ∈ front, ∀ b ∈ back, a.hi < b.lo) : Apart (front ++ back) :=
  ⟨forall_mem_append.mpr ⟨hfront.ne, hback.ne⟩,
    pairwise_append.mpr ⟨hfront.apart, hback.apart, hlt⟩⟩

theorem Apart.left (h : Apart (front ++ back)) : Apart front :=
  ⟨(forall_mem_append.mp h.ne).1, (pairwise_append.mp h.apart).1⟩

theorem Apart.right (h : Apart (front ++ back)) : Apart back :=
  ⟨(forall_mem_append.mp h.ne).2, (pairwise_append.mp h.apart).2.1⟩

theorem Apart.tail (h : Apart (s :: ss)) : Apart ss :=
  ⟨(forall_mem_cons.mp h.ne).2, (pairwise_cons.mp h.apart).2⟩

theorem Apart.head_lt (h : Apart (s :: ss)) (ht : t ∈ ss) : s.hi < t.lo :=
  (pairwise_cons.mp h.apart).1 t ht

theorem glue_ne (hs : s.cells ≠ []) (t : Stretch β) : (s.glue t).cells ≠ [] :=
  append_ne_nil_of_left_ne_nil hs _

theorem apart_glueRight (hs : s.cells ≠ []) (hback : Apart back)
    (hle : ∀ b ∈ back, s.hi ≤ b.lo) : Apart (glueRight s back) := by
  cases back with
  | nil => exact Apart.cons hs (fun t ht => absurd ht not_mem_nil) hback
  | cons t back =>
    rw [glueRight]
    split
    · next h =>
      refine Apart.cons (glue_ne hs t) (fun b hb => ?_) hback.tail
      rw [hi_glue h]
      exact hback.head_lt hb
    · next h =>
      refine Apart.cons hs ?_ hback
      have ht := hle t mem_cons_self
      have hwide := lo_lt_hi (hback.ne t mem_cons_self)
      intro b hb
      obtain rfl | hb := mem_cons.mp hb
      · omega
      · have hlt := hback.head_lt hb
        omega

theorem apart_glueLeft (hfront : Apart front) (hback : Apart (s :: back))
    (hle : ∀ a ∈ front, a.hi ≤ s.lo) : Apart (glueLeft front (s :: back)) := by
  obtain rfl | ⟨front, a, rfl⟩ := eq_nil_or_concat front
  · exact hback
  · rw [concat_eq_append] at hfront hle ⊢
    have ha : a ∈ front ++ [a] := mem_append_right _ (mem_singleton_self a)
    have hane := hfront.ne a ha
    have hwide := lo_lt_hi hane
    have hwide' := lo_lt_hi (hback.ne s mem_cons_self)
    have hfa : ∀ c ∈ front, c.hi < a.lo := fun c hc =>
      (pairwise_append.mp hfront.apart).2.2 c hc a (mem_singleton_self a)
    have hle := hle a ha
    rw [glueLeft_concat]
    split
    · next h =>
      refine hfront.left.append (Apart.cons (glue_ne hane s) (fun b hb => ?_) hback.tail) ?_
      · rw [hi_glue h]
        exact hback.head_lt hb
      · intro c hc b hb
        have hca := hfa c hc
        obtain rfl | hb := mem_cons.mp hb
        · exact hca
        · have hlt := hback.head_lt hb
          omega
    · next h =>
      have hlast : ∀ b ∈ s :: back, a.hi < b.lo := by
        intro b hb
        obtain rfl | hb := mem_cons.mp hb
        · omega
        · have hlt := hback.head_lt hb
          omega
      refine hfront.left.append (Apart.cons hane hlast hback) ?_
      intro c hc b hb
      have hca := hfa c hc
      obtain rfl | hb := mem_cons.mp hb
      · exact hca
      · have hlt := hlast b hb
        omega

theorem Fits.apart_put (h : Fits front s back) : Apart (put front s back) := by
  have hright := apart_glueRight h.ne h.apart.right h.le_back
  obtain ⟨s', back', heq, hlo⟩ := glueRight_cons s back
  rw [heq] at hright
  rw [put, heq]
  refine apart_glueLeft h.apart.left hright fun a ha => ?_
  rw [hlo]
  exact h.front_le a ha

theorem Fits.cellAt_eq_none (h : Fits front s back) (hx : (s.at? x).isSome) :
    cellAt (front ++ back) x = none := by
  rw [at?_isSome] at hx
  rw [← Option.not_isSome_iff_eq_none, cellAt_isSome]
  rintro ⟨t, ht, hlo, hhi⟩
  obtain ht | ht := mem_append.mp ht
  · have hle := h.front_le t ht
    omega
  · have hle := h.le_back t ht
    omega

theorem Fits.cellAt_put (h : Fits front s back) (x : ℤ) :
    cellAt (put front s back) x = (cellAt (front ++ back) x).or (s.at? x) := by
  rw [Stretch.cellAt_put]
  rcases hs : s.at? x with _ | b
  · rw [cellAt_append, Option.or_none, Option.or_none]
  · have hnone := h.cellAt_eq_none (Option.isSome_of_eq_some hs)
    rw [hnone]
    rw [cellAt_append, Option.or_eq_none_iff] at hnone
    rw [hnone.1, hnone.2]
    rfl

/-! ## How many -/

/-- The places where something begins. -/
def starts (f : ℤ → Option β) : Set ℤ := {x | (f x).isSome ∧ (f (x - 1)).isSome = false}

theorem Apart.trichotomy (h : Apart ss) (hs : s ∈ ss) (ht : t ∈ ss) :
    s = t ∨ s.hi < t.lo ∨ t.hi < s.lo := by
  have hsym : ss.Pairwise fun s t => s.hi < t.lo ∨ t.hi < s.lo := h.apart.imp .inl
  have : Std.Symm fun s t : Stretch β => s.hi < t.lo ∨ t.hi < s.lo := ⟨fun _ _ => Or.symm⟩
  by_cases heq : s = t
  · exact .inl heq
  · exact .inr (hsym.forall hs ht heq)

theorem Apart.starts_eq (h : Apart ss) : starts (cellAt ss) = {x | ∃ s ∈ ss, s.lo = x} := by
  ext x
  rw [starts, Set.mem_ofPred_eq, Set.mem_ofPred_eq, cellAt_isSome, Bool.eq_false_iff, ne_eq,
    cellAt_isSome]
  constructor
  · rintro ⟨⟨s, hs, hlo, hhi⟩, hbefore⟩
    refine ⟨s, hs, ?_⟩
    by_contra hne
    exact hbefore ⟨s, hs, by omega, by omega⟩
  · rintro ⟨s, hs, rfl⟩
    have hwide := lo_lt_hi (h.ne s hs)
    refine ⟨⟨s, hs, Int.le_refl _, hwide⟩, ?_⟩
    rintro ⟨t, ht, hlo, hhi⟩
    obtain rfl | hlt | hlt := h.trichotomy hs ht <;> omega

theorem Apart.length_eq (h : Apart ss) : ss.length = (starts (cellAt ss)).ncard := by
  have hnodup : (ss.map lo).Nodup := by
    refine pairwise_map.mpr (h.apart.imp_of_mem fun {s t} hs _ hlt => ?_)
    have hwide := lo_lt_hi (h.ne s hs)
    omega
  have hset : {x | ∃ s ∈ ss, s.lo = x} = ((ss.map lo).toFinset : Set ℤ) := by
    ext x
    simp
  rw [h.starts_eq, hset, Set.ncard_coe_finset, toFinset_card_of_nodup hnodup,
    length_map]

end Stretch

end BrixCache
