import Mathlib.Algebra.Group.Nat.Defs
import Mathlib.Data.Finset.Card
import Mathlib.Data.Nat.Find

/-!
# Linear probing with backward-shift deletion

A table of `n` slots is a function from slot numbers to entries, each entry with
a home slot. An entry is looked for from its home forward, around the end, up to
the first empty slot, so a table is usable when no empty slot stands between an
entry and its home (`Reachable`).

Deletion empties a slot and pulls later entries back over the hole. While it
runs, one slot — the hole — may stand in the way of others; `Gap` says what
still holds, and the four rules `gap_clear`, `gap_skip`, `gap_shift` and
`gap_close` are its start, its two steps and its end.
-/

namespace BrixCache

namespace LinearProbe

/-! ## Going around -/

/-- The slot after `i`. -/
def next (n i : ℕ) : ℕ := if i + 1 < n then i + 1 else 0

/-- How many steps lead from `a` forward to `b`. -/
def dist (n a b : ℕ) : ℕ := if a ≤ b then b - a else b + n - a

/-- The slot `d` steps after `a`. -/
def ahead (n a d : ℕ) : ℕ := if a + d < n then a + d else a + d - n

theorem next_cases (n i : ℕ) :
    (i + 1 < n ∧ next n i = i + 1) ∨ (n ≤ i + 1 ∧ next n i = 0) := by
  rcases Nat.lt_or_ge (i + 1) n with h | h
  · exact .inl ⟨h, if_pos h⟩
  · exact .inr ⟨h, if_neg (Nat.not_lt.mpr h)⟩

theorem dist_cases (n a b : ℕ) :
    (a ≤ b ∧ dist n a b = b - a) ∨ (b < a ∧ dist n a b = b + n - a) := by
  rcases Nat.lt_or_ge b a with h | h
  · exact .inr ⟨h, if_neg (Nat.not_le.mpr h)⟩
  · exact .inl ⟨h, if_pos h⟩

theorem ahead_cases (n a d : ℕ) :
    (a + d < n ∧ ahead n a d = a + d) ∨ (n ≤ a + d ∧ ahead n a d = a + d - n) := by
  rcases Nat.lt_or_ge (a + d) n with h | h
  · exact .inl ⟨h, if_pos h⟩
  · exact .inr ⟨h, if_neg (Nat.not_lt.mpr h)⟩

variable {n : ℕ}

variable {i a d : ℕ}

theorem next_lt (hi : i < n) : next n i < n := by
  rcases next_cases n i with h | h <;> omega

theorem dist_lt {b : ℕ} (ha : a < n) (hb : b < n) : dist n a b < n := by
  rcases dist_cases n a b with h | h <;> omega

theorem ahead_lt (ha : a < n) (hd : d < n) : ahead n a d < n := by
  rcases ahead_cases n a d with h | h <;> omega

theorem dist_self (n a : ℕ) : dist n a a = 0 := by
  rw [dist, if_pos (Nat.le_refl a), Nat.sub_self]

theorem dist_ahead (ha : a < n) (hd : d < n) : dist n a (ahead n a d) = d := by
  rcases ahead_cases n a d with h | h <;> rcases dist_cases n a (ahead n a d) with h' | h' <;>
    omega

theorem eq_of_dist_eq {j : ℕ} (ha : a < n) (hi : i < n) (hj : j < n)
    (h : dist n a i = dist n a j) : i = j := by
  rcases dist_cases n a i with h₁ | h₁ <;> rcases dist_cases n a j with h₂ | h₂ <;> omega

theorem dist_next (ha : a < n) (hi : i < n) (hne : next n i ≠ a) :
    dist n a (next n i) = dist n a i + 1 := by
  rcases next_cases n i with h | h <;> rcases dist_cases n a i with h₁ | h₁ <;>
    rcases dist_cases n a (next n i) with h₂ | h₂ <;> omega

theorem dist_next_left {z : ℕ} (hi : i < n) (hz : z < n) (hne : i ≠ z) :
    dist n (next n i) z + 1 = dist n i z := by
  rcases next_cases n i with h | h <;> rcases dist_cases n i z with h₁ | h₁ <;>
    rcases dist_cases n (next n i) z with h₂ | h₂ <;> omega

theorem ahead_zero (ha : a < n) : ahead n a 0 = a := by
  rcases ahead_cases n a 0 with h | h <;> omega

theorem next_ahead (ha : a < n) (hd : d + 1 < n) :
    next n (ahead n a d) = ahead n a (d + 1) := by
  rcases ahead_cases n a d with h | h <;> rcases ahead_cases n a (d + 1) with h' | h' <;>
    rcases next_cases n (ahead n a d) with h'' | h'' <;> omega

theorem ahead_dist (ha : a < n) (hi : i < n) : ahead n a (dist n a i) = i :=
  eq_of_dist_eq ha (ahead_lt ha (dist_lt ha hi)) hi (dist_ahead ha (dist_lt ha hi))

theorem next_two_pow {k : ℕ} (hi : i < 2 ^ k) : (i + 1) &&& (2 ^ k - 1) = next (2 ^ k) i := by
  rw [Nat.and_two_pow_sub_one_eq_mod]
  rcases next_cases (2 ^ k) i with ⟨h, hn⟩ | ⟨h, hn⟩
  · rw [hn, Nat.mod_eq_of_lt h]
  · have heq : i + 1 = 2 ^ k := by omega
    rw [hn, heq, Nat.mod_self]

theorem exists_first {stop : ℕ → Prop} (ha : a < n) (hstop : ∃ z < n, stop z) :
    ∃ d < n, stop (ahead n a d) ∧ ∀ c < d, ¬stop (ahead n a c) := by
  classical
  obtain ⟨z, hz, hs⟩ := hstop
  have hex : ∃ d, d < n ∧ stop (ahead n a d) := ⟨dist n a z, dist_lt ha hz, by rwa [ahead_dist ha hz]⟩
  refine ⟨Nat.find hex, (Nat.find_spec hex).1, (Nat.find_spec hex).2, fun c hc hcs => ?_⟩
  exact Nat.find_min hex hc ⟨Nat.lt_trans hc (Nat.find_spec hex).1, hcs⟩

/-! ## Tables -/

section Tables

variable {ε κ : Type} (home : ε → ℕ) (key : ε → κ)

/-- No empty slot from `a` up to, not including, `i`. -/
def Unbroken (n : ℕ) (s : ℕ → Option ε) (a i : ℕ) : Prop :=
  ∀ j < n, dist n a j < dist n a i → s j ≠ none

variable {a i c h : ℕ} {e : ε}

theorem unbroken_ahead {n : ℕ} {s : ℕ → Option ε} {d : ℕ} (ha : a < n) (hd : d < n)
    (h : ∀ c < d, s (ahead n a c) ≠ none) : Unbroken n s a (ahead n a d) := by
  intro j hj hlt
  rw [dist_ahead ha hd] at hlt
  have := h _ hlt
  rwa [ahead_dist ha hj] at this

/-- Every entry can be reached from its home. -/
def Reachable (n : ℕ) (s : ℕ → Option ε) : Prop :=
  ∀ i < n, ∀ e, s i = some e → Unbroken n s (home e) i

/-- `e` is in the table. -/
def Holds (n : ℕ) (s : ℕ → Option ε) (e : ε) : Prop := ∃ i < n, s i = some e

/-- No two slots hold the same key. -/
def Distinct (n : ℕ) (s : ℕ → Option ε) : Prop :=
  ∀ i < n, ∀ j < n, ∀ a b, s i = some a → s j = some b → key a = key b → i = j

def occupied (n : ℕ) (s : ℕ → Option ε) : Finset ℕ :=
  (Finset.range n).filter fun i => (s i).isSome

/-- The table with slot `i` holding `v`. -/
def put (s : ℕ → Option ε) (i : ℕ) (v : Option ε) : ℕ → Option ε :=
  fun j => if j = i then v else s j

variable {home key} {s : ℕ → Option ε}

theorem put_self (s : ℕ → Option ε) (i : ℕ) (v : Option ε) : put s i v i = v := if_pos rfl

theorem put_of_ne (s : ℕ → Option ε) {j : ℕ} (v : Option ε) (h : j ≠ i) :
    put s i v j = s j := if_neg h

theorem mem_occupied : i ∈ occupied n s ↔ i < n ∧ (s i).isSome := by
  rw [occupied, Finset.mem_filter, Finset.mem_range]

theorem occupied_put_none :
    occupied n (put s i none) = (occupied n s).erase i := by
  ext j
  rw [Finset.mem_erase, mem_occupied, mem_occupied]
  rcases eq_or_ne j i with rfl | h
  · rw [put_self]
    simp
  · rw [put_of_ne s none h]
    simp [h]

theorem occupied_put_some (hi : i < n) (e : ε) :
    occupied n (put s i (some e)) = insert i (occupied n s) := by
  ext j
  rw [Finset.mem_insert, mem_occupied, mem_occupied]
  rcases eq_or_ne j i with rfl | h
  · rw [put_self]
    simp [hi]
  · rw [put_of_ne s _ h]
    simp [h]

theorem card_put_none (hi : i < n) (h : s i = some e) :
    (occupied n (put s i none)).card + 1 = (occupied n s).card := by
  have hmem : i ∈ occupied n s := mem_occupied.mpr ⟨hi, by rw [h]; rfl⟩
  rw [occupied_put_none, Finset.card_erase_add_one hmem]

theorem card_put_some (hi : i < n) (h : s i = none) (e : ε) :
    (occupied n (put s i (some e))).card = (occupied n s).card + 1 := by
  have hmem : i ∉ occupied n s := by
    intro hmem
    have hsome := (mem_occupied.mp hmem).2
    rw [h] at hsome
    cases hsome
  rw [occupied_put_some hi, Finset.card_insert_of_notMem hmem]

theorem card_put_some_of_some {x : ε} (hi : i < n) (h : s i = some x) (e : ε) :
    (occupied n (put s i (some e))).card = (occupied n s).card := by
  have hmem : i ∈ occupied n s := mem_occupied.mpr ⟨hi, by rw [h]; rfl⟩
  rw [occupied_put_some hi, Finset.insert_eq_self.mpr hmem]

theorem exists_empty (h : (occupied n s).card < n) : ∃ z < n, s z = none := by
  by_contra hno
  push Not at hno
  have hall : occupied n s = Finset.range n := by
    ext i
    rw [mem_occupied, Finset.mem_range]
    refine ⟨fun h => h.1, fun hi => ⟨hi, ?_⟩⟩
    exact Option.isSome_iff_ne_none.mpr (hno i hi)
  rw [hall, Finset.card_range] at h
  exact Nat.lt_irrefl n h

/-- An entry is no further from home than there are entries. -/
theorem dist_lt_card (hr : Reachable home n s) (hhome : ∀ e, home e < n)
    (hi : i < n) (he : s i = some e) : dist n (home e) i < (occupied n s).card := by
  have hd := dist_lt (hhome e) hi
  have hinj : Set.InjOn (ahead n (home e)) (Finset.range (dist n (home e) i + 1)) := by
    intro d₁ h₁ d₂ h₂ heq
    have hd₁ : d₁ < n := by
      have := Finset.mem_range.mp h₁
      omega
    have hd₂ : d₂ < n := by
      have := Finset.mem_range.mp h₂
      omega
    rw [← dist_ahead (hhome e) hd₁, heq, dist_ahead (hhome e) hd₂]
  have hmaps : ∀ d ∈ Finset.range (dist n (home e) i + 1),
      ahead n (home e) d ∈ occupied n s := by
    intro d hd'
    have hdlt : d < dist n (home e) i + 1 := Finset.mem_range.mp hd'
    have hdn : d < n := by omega
    have hlt := ahead_lt (hhome e) hdn
    refine mem_occupied.mpr ⟨hlt, Option.isSome_iff_ne_none.mpr ?_⟩
    rcases Nat.lt_or_ge d (dist n (home e) i) with hnear | hnear
    · refine hr i hi e he _ hlt ?_
      rw [dist_ahead (hhome e) hdn]
      exact hnear
    · have heq : ahead n (home e) d = i := by
        refine eq_of_dist_eq (hhome e) hlt hi ?_
        rw [dist_ahead (hhome e) hdn]
        omega
      rw [heq, he]
      exact Option.some_ne_none e
  have hcard := Finset.card_le_card_of_injOn _ hmaps hinj
  rw [Finset.card_range] at hcard
  omega

theorem not_holds_of_empty (hr : Reachable home n s) {j : ℕ} (ha' : a < n) (hj : j < n)
    (hempty : s j = none) (ha : home e = a)
    (hseen : ∀ i < n, dist n a i < dist n a j → s i ≠ some e) : ¬ Holds n s e := by
  rintro ⟨i, hi, he⟩
  rcases Nat.lt_trichotomy (dist n a i) (dist n a j) with h | h | h
  · exact hseen i hi h he
  · rw [eq_of_dist_eq ha' hi hj h, hempty] at he
    cases he
  · refine hr i hi e he j hj ?_ hempty
    rw [ha]
    exact h

theorem not_holds_of_exhausted (hr : Reachable home n s) (hhome : ∀ e, home e < n) {p : ℕ}
    (hp : (occupied n s).card ≤ p) (ha : home e = a)
    (hseen : ∀ i < n, dist n a i < p → s i ≠ some e) : ¬ Holds n s e := by
  rintro ⟨i, hi, he⟩
  refine hseen i hi ?_ he
  rw [← ha]
  exact Nat.lt_of_lt_of_le (dist_lt_card hr hhome hi he) hp

theorem reachable_put (hr : Reachable home n s)
    (hpath : Unbroken n s (home e) i) : Reachable home n (put s i (some e)) := by
  intro j hj x hx l hl hlt
  rcases eq_or_ne l i with rfl | hli
  · rw [put_self]
    exact Option.some_ne_none e
  · rw [put_of_ne s _ hli]
    rcases eq_or_ne j i with rfl | hji
    · rw [put_self] at hx
      cases hx
      exact hpath l hl hlt
    · rw [put_of_ne s _ hji] at hx
      exact hr j hj x hx l hl hlt

/-! ## Deletion -/

/-- The table while a deletion runs: slot `h` is the hole, and the slots after
it up to `c` have been looked at. -/
structure Gap (home : ε → ℕ) (n : ℕ) (s : ℕ → Option ε) (h c : ℕ) : Prop where
  hole_lt : h < n
  cur_lt : c < n
  hole : s h = none
  /-- nothing empty was passed -/
  chain : ∀ j < n, 0 < dist n h j → dist n h j ≤ dist n h c → s j ≠ none
  /-- the hole is the only slot that may stand in an entry's way -/
  reach : ∀ i < n, ∀ e, s i = some e → ∀ j < n,
    dist n (home e) j < dist n (home e) i → s j ≠ none ∨ j = h
  /-- and it does not stand in the way of an entry already looked at -/
  settled : ∀ i < n, ∀ e, s i = some e → dist n h i ≤ dist n h c →
    ¬ dist n (home e) h < dist n (home e) i

theorem gap_clear (hr : Reachable home n s) (hi : i < n) :
    Gap home n (put s i none) i i where
  hole_lt := hi
  cur_lt := hi
  hole := put_self s i none
  chain := by
    intro j _ hpos hle
    rw [dist_self] at hle
    omega
  reach := by
    intro k hk e he j hj hlt
    rcases eq_or_ne j i with rfl | hji
    · exact .inr rfl
    · rcases eq_or_ne k i with rfl | hki
      · rw [put_self] at he
        cases he
      · rw [put_of_ne s none hki] at he
        rw [put_of_ne s none hji]
        exact .inl (hr k hk e he j hj hlt)
  settled := by
    intro k hk e he hle
    rw [dist_self] at hle
    have hki : i = k := eq_of_dist_eq hi hi hk (by rw [dist_self]; omega)
    rw [← hki, put_self] at he
    cases he

theorem Gap.next_ne (hg : Gap home n s h c) (he : s (next n c) = some e) :
    next n c ≠ h ∧ dist n h (next n c) = dist n h c + 1 := by
  have hne : next n c ≠ h := by
    intro heq
    rw [heq, hg.hole] at he
    cases he
  exact ⟨hne, dist_next hg.hole_lt hg.cur_lt hne⟩

theorem gap_skip (hg : Gap home n s h c) (he : s (next n c) = some e)
    (hstay : ¬ dist n (home e) h < dist n (home e) (next n c)) :
    Gap home n s h (next n c) := by
  obtain ⟨hne, hdist⟩ := hg.next_ne he
  have hlt := next_lt hg.cur_lt
  refine ⟨hg.hole_lt, hlt, hg.hole, ?_, hg.reach, ?_⟩
  · intro j hj hpos hle
    rcases Nat.lt_or_ge (dist n h c) (dist n h j) with hfar | hnear
    · have hj' : j = next n c := eq_of_dist_eq hg.hole_lt hj hlt (by omega)
      rw [hj', he]
      exact Option.some_ne_none e
    · exact hg.chain j hj hpos hnear
  · intro i hi x hx hle
    rcases Nat.lt_or_ge (dist n h c) (dist n h i) with hfar | hnear
    · have hi' : i = next n c := eq_of_dist_eq hg.hole_lt hi hlt (by omega)
      rw [hi', he] at hx
      cases hx
      rw [hi']
      exact hstay
    · exact hg.settled i hi x hx hnear

/-- A hole that an entry is pulled into moves on. -/
theorem gap_shift (hg : Gap home n s h c) (he : s (next n c) = some e)
    (hpull : dist n (home e) h < dist n (home e) (next n c)) :
    Gap home n (put (put s h (some e)) (next n c) none) (next n c) (next n c) := by
  obtain ⟨hne, -⟩ := hg.next_ne he
  have hlt := next_lt hg.cur_lt
  -- a slot other than the new hole is occupied when it was, or was the old hole
  have hkeep : ∀ j, s j ≠ none ∨ j = h →
      put (put s h (some e)) (next n c) none j ≠ none ∨ j = next n c := by
    intro j hj
    rcases eq_or_ne j (next n c) with rfl | hjc
    · exact .inr rfl
    · rw [put_of_ne _ none hjc]
      rcases eq_or_ne j h with rfl | hjh
      · rw [put_self]
        exact .inl (Option.some_ne_none e)
      · rw [put_of_ne s _ hjh]
        exact .inl (hj.resolve_right hjh)
  refine ⟨hlt, hlt, put_self _ _ _, ?_, ?_, ?_⟩
  · intro j _ hpos hle
    rw [dist_self] at hle
    omega
  · intro i hi x hx j hj hjlt
    rcases eq_or_ne i (next n c) with rfl | hic
    · rw [put_self] at hx
      cases hx
    · rw [put_of_ne _ none hic] at hx
      rcases eq_or_ne i h with rfl | hih
      · -- the entry pulled back: its way to the hole is a part of its old way
        rw [put_self] at hx
        cases hx
        exact hkeep j (hg.reach _ hlt e he j hj (Nat.lt_trans hjlt hpull))
      · rw [put_of_ne s _ hih] at hx
        exact hkeep j (hg.reach i hi x hx j hj hjlt)
  · intro i hi x hx hle
    rw [dist_self] at hle
    have hi' : next n c = i := eq_of_dist_eq hlt hlt hi (by rw [dist_self]; omega)
    rw [← hi', put_self] at hx
    cases hx

/-- At a free slot the hole is closed. -/
theorem gap_close (hhome : ∀ e, home e < n) (hg : Gap home n s h c)
    (hempty : s (next n c) = none) : Reachable home n s := by
  intro i hi e he j hj hlt
  rcases hg.reach i hi e he j hj hlt with hsome | rfl
  · exact hsome
  · -- the hole in the way of `e`: then `e` was not looked at, so it lies behind
    -- the empty slot, which is then in its way too, without being the hole
    exfalso
    have hfar : dist n j c < dist n j i := by
      rcases Nat.lt_or_ge (dist n j c) (dist n j i) with hfar | hnear
      · exact hfar
      · exact absurd hlt (hg.settled i hi e he hnear)
    have hnlt := next_lt hg.cur_lt
    have hcur := hg.cur_lt
    have hh := hhome e
    have hstop : next n c ≠ i := by
      intro heq
      rw [← heq, hempty] at he
      cases he
    have hhole : next n c ≠ j := by
      intro heq
      have hd := dist_lt hj hi
      rcases next_cases n c with h₁ | h₁ <;> rcases dist_cases n j c with h₂ | h₂ <;> omega
    have hway : dist n (home e) (next n c) < dist n (home e) i := by
      rcases next_cases n c with h₀ | h₀ <;> rcases dist_cases n j c with h₁ | h₁ <;>
        rcases dist_cases n j i with h₂ | h₂ <;>
        rcases dist_cases n (home e) i with h₃ | h₃ <;>
        rcases dist_cases n (home e) j with h₄ | h₄ <;>
        rcases dist_cases n (home e) (next n c) with h₅ | h₅ <;> omega
    rcases hg.reach i hi e he _ hnlt hway with hsome | heq
    · exact hsome hempty
    · exact hhole heq

/-! ## What a deletion leaves alone -/

/-- `s'` is `s` with its entries moved about. -/
structure Rearranged (key : ε → κ) (n : ℕ) (s s' : ℕ → Option ε) : Prop where
  holds : ∀ e, Holds n s' e ↔ Holds n s e
  distinct : Distinct key n s → Distinct key n s'
  card : (occupied n s').card = (occupied n s).card

theorem Rearranged.refl (s : ℕ → Option ε) : Rearranged key n s s :=
  ⟨fun _ => Iff.rfl, id, rfl⟩

theorem Rearranged.trans {s₁ s₂ s₃ : ℕ → Option ε} (h₁ : Rearranged key n s₁ s₂)
    (h₂ : Rearranged key n s₂ s₃) : Rearranged key n s₁ s₃ :=
  ⟨fun e => (h₂.holds e).trans (h₁.holds e), fun hd => h₂.distinct (h₁.distinct hd),
    h₂.card.trans h₁.card⟩

theorem rearranged_shift (hh : h < n) (hc : c < n) (hole : s h = none)
    (he : s c = some e) : Rearranged key n s (put (put s h (some e)) c none) := by
  have hne : h ≠ c := by
    rintro rfl
    rw [hole] at he
    cases he
  -- where an entry of the new table stood in the old one
  have hold : ∀ i x, put (put s h (some e)) c none i = some x →
      (i = h ∧ x = e) ∨ (i ≠ h ∧ i ≠ c ∧ s i = some x) := by
    intro i x hx
    rcases eq_or_ne i c with rfl | hic
    · rw [put_self] at hx
      cases hx
    · rw [put_of_ne _ none hic] at hx
      rcases eq_or_ne i h with rfl | hih
      · rw [put_self] at hx
        exact .inl ⟨rfl, (Option.some.inj hx).symm⟩
      · rw [put_of_ne s _ hih] at hx
        exact .inr ⟨hih, hic, hx⟩
  refine ⟨fun x => ⟨?_, ?_⟩, ?_, ?_⟩
  · rintro ⟨i, hi, hx⟩
    rcases hold i x hx with ⟨-, rfl⟩ | ⟨-, -, hx'⟩
    · exact ⟨c, hc, he⟩
    · exact ⟨i, hi, hx'⟩
  · rintro ⟨i, hi, hx⟩
    rcases eq_or_ne i c with rfl | hic
    · rw [he] at hx
      cases hx
      refine ⟨h, hh, ?_⟩
      rw [put_of_ne _ none hne, put_self]
    · have hih : i ≠ h := by
        rintro rfl
        rw [hole] at hx
        cases hx
      refine ⟨i, hi, ?_⟩
      rw [put_of_ne _ none hic, put_of_ne s _ hih]
      exact hx
  · intro hd i hi j hj a b ha hb hab
    rcases hold i a ha with ⟨rfl, rfl⟩ | ⟨-, hic, ha'⟩ <;>
      rcases hold j b hb with ⟨rfl, rfl⟩ | ⟨-, hjc, hb'⟩
    · rfl
    · exact absurd (hd c hc j hj a b he hb' hab).symm hjc
    · exact absurd (hd i hi c hc a b ha' he hab) hic
    · exact hd i hi j hj a b ha' hb' hab
  · have hmid : put s h (some e) c = some e := by
      rw [put_of_ne s _ hne.symm]
      exact he
    have h₁ := card_put_some hh hole e
    have h₂ := card_put_none hc hmid
    omega

theorem holds_put_none (hd : Distinct key n s) (hi : i < n) (he : s i = some e) (x : ε) :
    Holds n (put s i none) x ↔ Holds n s x ∧ key x ≠ key e := by
  constructor
  · rintro ⟨j, hj, hx⟩
    rcases eq_or_ne j i with rfl | hji
    · rw [put_self] at hx
      cases hx
    · rw [put_of_ne s none hji] at hx
      exact ⟨⟨j, hj, hx⟩, fun hk => hji (hd j hj i hi x e hx he hk)⟩
  · rintro ⟨⟨j, hj, hx⟩, hk⟩
    have hji : j ≠ i := by
      rintro rfl
      rw [he] at hx
      cases hx
      exact hk rfl
    refine ⟨j, hj, ?_⟩
    rw [put_of_ne s none hji]
    exact hx

theorem holds_put_some (hi : i < n) (e x : ε) :
    Holds n (put s i (some e)) x ↔ x = e ∨ ∃ j < n, j ≠ i ∧ s j = some x := by
  constructor
  · rintro ⟨j, hj, hx⟩
    rcases eq_or_ne j i with rfl | hji
    · rw [put_self] at hx
      exact .inl (Option.some.inj hx).symm
    · rw [put_of_ne s _ hji] at hx
      exact .inr ⟨j, hj, hji, hx⟩
  · rintro (rfl | ⟨j, hj, hji, hx⟩)
    · exact ⟨i, hi, put_self s i _⟩
    · refine ⟨j, hj, ?_⟩
      rw [put_of_ne s _ hji]
      exact hx

theorem distinct_put_some (hd : Distinct key n s)
    (hnew : ∀ j < n, j ≠ i → ∀ x, s j = some x → key x ≠ key e) :
    Distinct key n (put s i (some e)) := by
  intro j hj k hk a b ha hb hab
  rcases eq_or_ne j i with rfl | hji
  · rcases eq_or_ne k j with rfl | hkj
    · rfl
    · rw [put_self] at ha
      cases ha
      rw [put_of_ne s _ hkj] at hb
      exact absurd hab.symm (hnew k hk hkj b hb)
  · rw [put_of_ne s _ hji] at ha
    rcases eq_or_ne k i with rfl | hki
    · rw [put_self] at hb
      cases hb
      exact absurd hab (hnew j hj hji a ha)
    · rw [put_of_ne s _ hki] at hb
      exact hd j hj k hk a b ha hb hab

theorem distinct_put_none (hd : Distinct key n s) (i : ℕ) : Distinct key n (put s i none) := by
  intro j hj k hk a b ha hb hab
  rcases eq_or_ne j i with rfl | hji
  · rw [put_self] at ha
    cases ha
  · rcases eq_or_ne k i with rfl | hki
    · rw [put_self] at hb
      cases hb
    · rw [put_of_ne s none hji] at ha
      rw [put_of_ne s none hki] at hb
      exact hd j hj k hk a b ha hb hab

end Tables

end LinearProbe

end BrixCache
