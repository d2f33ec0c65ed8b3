import Mathlib.Data.Finset.Card
import Mathlib.Data.Nat.ModEq
import Mathlib.Data.Nat.Prime.Basic
import Mathlib.Tactic.Ring

/-!
# Triangular probing

A table of `2 ^ e` slots is a list of them, each free or holding a key. A key is looked for from
its bucket on, one slot further, then two, then three, up to a slot that is free or holds the
key. The distances are the triangular numbers, which fall on every slot of a table whose size is a
power of two, so a search ends in every table that has a free slot.

Keys are put where their search ends and never removed. Then every key is where its search ends
(`Reached`), and a table holds exactly the keys that were put into it.
-/

namespace BrixCache

open List

namespace TriangularProbe

/-! ## The distances -/

/-- `1 + 2 + … + j` -/
def tri : ℕ → ℕ
  | 0 => 0
  | j + 1 => tri j + (j + 1)

theorem two_mul_tri (j : ℕ) : 2 * tri j = j * (j + 1) := by
  induction j with
  | zero => rfl
  | succ j ih =>
    rw [tri, Nat.mul_add, ih]
    ring

theorem tri_le_tri {a b : ℕ} (h : a ≤ b) : tri a ≤ tri b := by
  induction h with
  | refl => exact Nat.le_refl _
  | step _ ih => exact Nat.le_trans ih (Nat.le_add_right _ _)

theorem two_mul_tri_sub {a d : ℕ} : 2 * (tri (a + d) - tri a) = d * (2 * a + d + 1) := by
  have hle := tri_le_tri (Nat.le_add_right a d)
  have hsum : 2 * (tri (a + d) - tri a) + 2 * tri a = 2 * tri (a + d) := by omega
  have hexpand : (a + d) * (a + d + 1) = d * (2 * a + d + 1) + a * (a + 1) := by ring
  rw [two_mul_tri, two_mul_tri] at hsum
  omega

theorem probe_inj {e i a b : ℕ} (ha : a < 2 ^ e) (hb : b < 2 ^ e)
    (h : (i + tri a) % 2 ^ e = (i + tri b) % 2 ^ e) : a = b := by
  wlog hle : a ≤ b generalizing a b with hsymm
  · exact (hsymm hb ha h.symm (by omega)).symm
  obtain ⟨d, rfl⟩ := Nat.exists_eq_add_of_le hle
  have hmod : Nat.ModEq (2 ^ e) (tri a) (tri (a + d)) := Nat.ModEq.add_left_cancel' i h
  have hdvd : 2 ^ e ∣ tri (a + d) - tri a :=
    (Nat.modEq_iff_dvd' (tri_le_tri (Nat.le_add_right a d))).mp hmod
  have hprod : 2 ^ (e + 1) ∣ d * (2 * a + d + 1) := by
    rw [← two_mul_tri_sub, pow_succ, Nat.mul_comm (2 ^ e)]
    exact Nat.mul_dvd_mul_left 2 hdvd
  have hpow : 2 ^ (e + 1) = 2 * 2 ^ e := by ring
  rcases Nat.even_or_odd d with heven | hodd
  · -- the second factor is odd, so the power divides the first, which is smaller
    have hfactor : Odd (2 * a + d + 1) := ((even_two_mul a).add heven).add_one
    have hcop : Nat.Coprime (2 ^ (e + 1)) (2 * a + d + 1) :=
      (Nat.coprime_two_left.mpr hfactor).pow_left _
    have hd : d = 0 := Nat.eq_zero_of_dvd_of_lt (hcop.dvd_of_dvd_mul_right hprod) (by omega)
    omega
  · have hcop : Nat.Coprime (2 ^ (e + 1)) d := (Nat.coprime_two_left.mpr hodd).pow_left _
    have hle := Nat.le_of_dvd (by omega) (hcop.dvd_of_dvd_mul_left hprod)
    omega

theorem exists_probe {e : ℕ} (i : ℕ) {s : ℕ} (hs : s < 2 ^ e) :
    ∃ j < 2 ^ e, (i + tri j) % 2 ^ e = s := by
  have hpos : 0 < 2 ^ e := Nat.two_pow_pos e
  have hmaps : Set.MapsTo (fun j => (i + tri j) % 2 ^ e) (Finset.range (2 ^ e))
      (Finset.range (2 ^ e)) := by
    intro j _
    exact Finset.mem_coe.mpr (Finset.mem_range.mpr (Nat.mod_lt _ hpos))
  have hinj : Set.InjOn (fun j => (i + tri j) % 2 ^ e) (Finset.range (2 ^ e)) := by
    intro a ha b hb h
    exact probe_inj (Finset.mem_range.mp ha) (Finset.mem_range.mp hb) h
  have hsurj := Finset.surjOn_of_injOn_of_card_le _ hmaps hinj (Nat.le_refl _)
  obtain ⟨j, hj, heq⟩ := hsurj (Finset.mem_coe.mpr (Finset.mem_range.mpr hs))
  exact ⟨j, Finset.mem_range.mp hj, heq⟩

/-! ## Slots -/

variable {κ : Type} {tab : List (Option κ)} {k x : κ} {e s : ℕ}

theorem mem_iff_getD : some k ∈ tab ↔ ∃ s, tab.getD s none = some k := by
  simp only [getD_eq_getElem?_getD, mem_iff_getElem?]
  constructor
  · rintro ⟨s, hs⟩
    exact ⟨s, by rw [hs, Option.getD_some]⟩
  · rintro ⟨s, hs⟩
    rcases hget : tab[s]? with _ | o
    · rw [hget] at hs
      cases hs
    · rw [hget, Option.getD_some] at hs
      exact ⟨s, by rw [hget, hs]⟩

theorem getD_set (hs : s < tab.length) (o : Option κ) (i : ℕ) :
    (tab.set s o).getD i none = if i = s then o else tab.getD i none := by
  simp only [getD_eq_getElem?_getD, getElem?_set]
  by_cases h : s = i
  · rw [if_pos h, if_pos (h ▸ hs), if_pos h.symm, Option.getD_some]
  · rw [if_neg h, if_neg (Ne.symm h)]

/-- How many slots are taken. -/
def taken (tab : List (Option κ)) : ℕ := tab.countP Option.isSome

theorem exists_free (h : taken tab < tab.length) :
    ∃ s < tab.length, tab.getD s none = none := by
  by_contra hno
  push Not at hno
  refine Nat.lt_irrefl _ (lt_of_lt_of_le h (Nat.le_of_eq (countP_eq_length.mpr ?_).symm))
  intro o ho
  obtain ⟨s, hs, hget⟩ := mem_iff_getElem.mp ho
  have hsome := hno s hs
  rw [getD_eq_getElem?_getD, getElem?_eq_getElem hs, hget] at hsome
  exact Option.isSome_iff_ne_none.mpr hsome

/-! ## Searching -/

variable [DecidableEq κ]

/-- The search for a key, with the probes that are left, where it is and how far it went last. -/
def slotFrom (tab : List (Option κ)) (k : κ) : ℕ → ℕ → ℕ → Option ℕ
  | 0, _, _ => none
  | left + 1, i, step =>
    let s := i &&& (tab.length - 1)
    match tab.getD s none with
    | none => some s
    | some k' => if k' = k then some s else slotFrom tab k left (i + (step + 1)) (step + 1)

/-- The slot of a key, or the free one that ends its search. -/
def slot (bucket : κ → ℕ) (tab : List (Option κ)) (k : κ) : Option ℕ :=
  slotFrom tab k tab.length (bucket k) 0

def put (bucket : κ → ℕ) (tab : List (Option κ)) (k : κ) : List (Option κ) :=
  match slot bucket tab k with
  | none => tab
  | some s => tab.set s (some k)

/-- What a slot of the old table brings to the new one. -/
def putCell (bucket : κ → ℕ) (new : List (Option κ)) : Option κ → List (Option κ)
  | none => new
  | some k => put bucket new k

/-- A table of `cap` slots with the keys of another. -/
def rehash (bucket : κ → ℕ) (cap : ℕ) (tab : List (Option κ)) : List (Option κ) :=
  tab.foldl (putCell bucket) (replicate cap none)

variable {bucket : κ → ℕ}

/-- The slot of probe `j`. -/
def probe (bucket : κ → ℕ) (tab : List (Option κ)) (k : κ) (j : ℕ) : ℕ :=
  (bucket k + tri j) % tab.length

/-- Does the search end at probe `j`? -/
def Stops (bucket : κ → ℕ) (tab : List (Option κ)) (k : κ) (j : ℕ) : Prop :=
  tab.getD (probe bucket tab k j) none = none ∨ tab.getD (probe bucket tab k j) none = some k

instance (j : ℕ) : Decidable (Stops bucket tab k j) := inferInstanceAs (Decidable (_ ∨ _))

/-- The probe ends at the first slot that stops it. -/
theorem slotFrom_of_stops (hlen : tab.length = 2 ^ e) {left step d : ℕ} (hd : d < left)
    (hstop : Stops bucket tab k (step + d))
    (hno : ∀ j, step ≤ j → j < step + d → ¬ Stops bucket tab k j) :
    slotFrom tab k left (bucket k + tri step) step = some (probe bucket tab k (step + d)) := by
  induction d generalizing left step with
  | zero =>
    obtain ⟨left, rfl⟩ := Nat.exists_eq_succ_of_ne_zero (Nat.pos_iff_ne_zero.mp hd)
    have hs : (bucket k + tri step) &&& (tab.length - 1) = probe bucket tab k step := by
      rw [probe, hlen, Nat.and_two_pow_sub_one_eq_mod]
    rw [slotFrom, hs]
    rcases hstop with hfree | hheld
    · rw [Nat.add_zero] at hfree
      simp only [hfree, Nat.add_zero]
    · rw [Nat.add_zero] at hheld
      simp only [hheld, Nat.add_zero, if_true]
  | succ d ih =>
    obtain ⟨left, rfl⟩ :=
      Nat.exists_eq_succ_of_ne_zero (Nat.pos_iff_ne_zero.mp (Nat.zero_lt_of_lt hd))
    have hs : (bucket k + tri step) &&& (tab.length - 1) = probe bucket tab k step := by
      rw [probe, hlen, Nat.and_two_pow_sub_one_eq_mod]
    have hhere := hno step (Nat.le_refl _) (by omega)
    have hrest := @ih left (step + 1) (by omega) (by
      rw [Nat.add_assoc, Nat.add_comm 1 d]
      exact hstop) (fun j hj hj' => hno j (by omega) (by omega))
    rw [slotFrom, hs]
    rcases hcell : tab.getD (probe bucket tab k step) none with _ | k'
    · exact absurd (.inl hcell) hhere
    · have hne : k' ≠ k := by
        rintro rfl
        exact hhere (.inr hcell)
      rw [tri, ← Nat.add_assoc, Nat.add_assoc step, Nat.add_comm 1 d] at hrest
      simpa only [hne, if_false] using hrest

theorem slot_of_stops (hlen : tab.length = 2 ^ e) {j : ℕ} (hj : j < tab.length)
    (hstop : Stops bucket tab k j) (hno : ∀ j' < j, ¬ Stops bucket tab k j') :
    slot bucket tab k = some (probe bucket tab k j) := by
  have h : slotFrom tab k tab.length (bucket k + tri 0) 0 = some (probe bucket tab k (0 + j)) :=
    slotFrom_of_stops hlen hj (by rwa [Nat.zero_add]) (fun j' _ hj' => hno j' (by omega))
  rwa [Nat.zero_add] at h

theorem exists_slot (hlen : tab.length = 2 ^ e) (hs : s < tab.length)
    (hfree : tab.getD s none = none) (k : κ) :
    ∃ j < tab.length, slot bucket tab k = some (probe bucket tab k j) ∧
      Stops bucket tab k j ∧ ∀ j' < j, ¬ Stops bucket tab k j' := by
  have hex : ∃ j, j < tab.length ∧ Stops bucket tab k j := by
    obtain ⟨j, hj, heq⟩ := exists_probe (e := e) (bucket k) (by rwa [hlen] at hs)
    rw [← hlen] at hj heq
    exact ⟨j, hj, .inl (by rw [probe, heq]; exact hfree)⟩
  obtain ⟨hj, hstop⟩ := Nat.find_spec hex
  have hno : ∀ j' < Nat.find hex, ¬ Stops bucket tab k j' := by
    intro j' hj' hstop'
    exact Nat.find_min hex hj' ⟨by omega, hstop'⟩
  exact ⟨_, hj, slot_of_stops hlen hj hstop hno, hstop, hno⟩

/-! ## Tables -/

/-- Every key is where its search ends. -/
def Reached (bucket : κ → ℕ) (tab : List (Option κ)) : Prop :=
  ∀ s k, tab.getD s none = some k →
    ∃ j < tab.length, probe bucket tab k j = s ∧ ∀ j' < j, ¬ Stops bucket tab k j'

theorem mem_iff_slot (hlen : tab.length = 2 ^ e) (hr : Reached bucket tab)
    (hfree : taken tab < tab.length) :
    some k ∈ tab ↔ ∃ s, slot bucket tab k = some s ∧ tab.getD s none ≠ none := by
  rw [mem_iff_getD]
  constructor
  · rintro ⟨s, hheld⟩
    obtain ⟨j, hj, rfl, hno⟩ := hr s k hheld
    exact ⟨_, slot_of_stops hlen hj (.inr hheld) hno, by rw [hheld]; exact nofun⟩
  · rintro ⟨s, hslot, htaken⟩
    obtain ⟨z, hz, hzfree⟩ := exists_free hfree
    obtain ⟨j, hj, hslot', hstop, -⟩ := exists_slot hlen hz hzfree k
    obtain rfl := Option.some.inj (hslot.symm.trans hslot')
    rcases hstop with hnone | hheld
    · exact absurd hnone htaken
    · exact ⟨_, hheld⟩

theorem length_put (bucket : κ → ℕ) (tab : List (Option κ)) (k : κ) :
    (put bucket tab k).length = tab.length := by
  rw [put]
  split
  · rfl
  · exact length_set

/-- **Putting a key**: the table has the key besides those it had, each where its search ends,
and at most one more slot is taken. -/
theorem put_spec (hlen : tab.length = 2 ^ e) (hr : Reached bucket tab)
    (hfree : taken tab < tab.length) (k : κ) :
    Reached bucket (put bucket tab k) ∧
      (∀ x, some x ∈ put bucket tab k ↔ x = k ∨ some x ∈ tab) ∧
      taken (put bucket tab k) ≤ taken tab + 1 := by
  obtain ⟨z, hz, hzfree⟩ := exists_free hfree
  obtain ⟨j, hj, hslot, hstop, hno⟩ := exists_slot hlen hz hzfree k
  obtain ⟨s, hseq⟩ : ∃ s, s = probe bucket tab k j := ⟨_, rfl⟩
  have hs : s < tab.length := by
    rw [hseq]
    exact Nat.mod_lt _ (by omega)
  have hput : put bucket tab k = tab.set s (some k) := by
    rw [put, hslot, hseq]
  have hget := fun i => getD_set hs (some k) i
  -- a search that goes past a slot before goes past it afterwards
  have hpast : ∀ x j', x = k ∧ j' < j ∨ x ≠ k → ¬ Stops bucket tab x j' →
      ¬ Stops bucket (tab.set s (some k)) x j' := by
    intro x j' hx hgo hstop'
    have hprobe : probe bucket (tab.set s (some k)) x j' = probe bucket tab x j' := by
      rw [probe, probe, length_set]
    rw [Stops, hprobe, hget] at hstop'
    by_cases hat : probe bucket tab x j' = s
    · rw [if_pos hat] at hstop'
      rcases hx with ⟨rfl, hj'⟩ | hne
      · -- the slot of the key is not among the earlier probes
        rw [Stops, hat, hseq] at hgo
        exact hgo hstop
      · rcases hstop' with hnone | hheld
        · cases hnone
        · exact hne (Option.some.inj hheld).symm
    · rw [if_neg hat] at hstop'
      exact hgo hstop'
  rw [hput]
  refine ⟨fun i x hx => ?_, fun x => ?_, ?_⟩
  · rw [length_set]
    have hprobe : ∀ j', probe bucket (tab.set s (some k)) x j' = probe bucket tab x j' := by
      intro j'
      rw [probe, probe, length_set]
    rw [hget] at hx
    by_cases hi : i = s
    · rw [if_pos hi] at hx
      cases hx
      exact ⟨j, hj, by rw [hprobe, hi, hseq],
        fun j' hj' => hpast _ j' (.inl ⟨rfl, hj'⟩) (hno j' hj')⟩
    · rw [if_neg hi] at hx
      obtain ⟨j₁, hj₁, heq, hgo⟩ := hr i x hx
      refine ⟨j₁, hj₁, by rw [hprobe, heq], fun j' hj' => hpast _ j' ?_ (hgo j' hj')⟩
      by_cases hxk : x = k
      · -- the key was in the table, so its search ended there
        subst hxk
        have hslot₁ := slot_of_stops hlen hj₁ (.inr (by rw [heq]; exact hx)) hgo
        have hsame := Option.some.inj (hslot₁.symm.trans hslot)
        rw [heq, ← hseq] at hsame
        exact absurd hsame hi
      · exact .inr hxk
  · rw [mem_iff_getD, mem_iff_getD]
    constructor
    · rintro ⟨i, hi⟩
      rw [hget] at hi
      split at hi
      · exact .inl (Option.some.inj hi).symm
      · exact .inr ⟨i, hi⟩
    · rintro (rfl | ⟨i, hi⟩)
      · exact ⟨s, by rw [hget, if_pos rfl]⟩
      · refine ⟨i, ?_⟩
        rw [hget]
        by_cases his : i = s
        · rw [if_pos his]
          rw [his, hseq] at hi
          rcases hstop with hnone | hheld
          · rw [hnone] at hi
            cases hi
          · rw [← hheld, hi]
        · rw [if_neg his, hi]
  · rw [taken, countP_set hs, taken]
    simp only [Option.isSome_some, if_true]
    split <;> omega

theorem foldl_putCell_spec {cap : ℕ} (hcap : cap = 2 ^ e) {new : List (Option κ)}
    (hnew : new.length = cap) (hr : Reached bucket new) (hfits : taken new + taken tab < cap) :
    (tab.foldl (putCell bucket) new).length = cap ∧
      Reached bucket (tab.foldl (putCell bucket) new) ∧
      (∀ x, some x ∈ tab.foldl (putCell bucket) new ↔ some x ∈ new ∨ some x ∈ tab) ∧
      taken (tab.foldl (putCell bucket) new) ≤ taken new + taken tab := by
  induction tab generalizing new with
  | nil => exact ⟨hnew, hr, fun x => by simp, Nat.le_refl _⟩
  | cons o tab ih =>
    rw [foldl_cons]
    cases o with
    | none =>
      have htaken : taken (none :: tab) = taken tab := countP_cons_of_neg nofun
      rw [htaken] at hfits ⊢
      obtain ⟨hlen, hr', hmem, hle⟩ := ih hnew hr hfits
      refine ⟨hlen, hr', fun x => ?_, hle⟩
      rw [putCell, hmem]
      simp
    | some k =>
      have htaken : taken (some k :: tab) = taken tab + 1 := countP_cons_of_pos rfl
      rw [htaken] at hfits ⊢
      obtain ⟨hr₁, hmem₁, hle₁⟩ := put_spec (hnew.trans hcap) hr (by omega) k
      obtain ⟨hlen, hr', hmem, hle⟩ := ih ((length_put bucket new k).trans hnew) hr₁ (by omega)
      refine ⟨hlen, hr', fun x => ?_, Nat.le_trans hle (by omega)⟩
      rw [putCell, hmem, hmem₁, mem_cons, Option.some.injEq]
      tauto

theorem rehash_spec {cap : ℕ} (hcap : cap = 2 ^ e) (hfits : taken tab < cap) :
    (rehash bucket cap tab).length = cap ∧ Reached bucket (rehash bucket cap tab) ∧
      (∀ x, some x ∈ rehash bucket cap tab ↔ some x ∈ tab) ∧
      taken (rehash bucket cap tab) ≤ taken tab := by
  have hzero : taken (replicate cap (none : Option κ)) = 0 := by simp [taken]
  have hreached : Reached bucket (replicate cap (none : Option κ)) := by
    intro s k h
    have hmem := eq_of_mem_replicate (mem_iff_getD.mpr ⟨s, h⟩)
    cases hmem
  have hroom : taken (replicate cap (none : Option κ)) + taken tab < cap := by omega
  obtain ⟨hlen, hr, hmem, hle⟩ :=
    foldl_putCell_spec hcap length_replicate hreached hroom
  rw [hzero, Nat.zero_add] at hle
  refine ⟨hlen, hr, fun x => ?_, hle⟩
  rw [rehash, hmem]
  simp

end TriangularProbe

end BrixCache
