import Mathlib.Tactic.IntervalCases

/-!
# Bitmaps over byte strings

Bit `i` of a byte string is bit `i % 8` of byte `i / 8`, low bit first. Bits
past the end read as absent, and setting one there changes nothing — the
callers bound the index, as the code they model does.
-/

namespace BrixCache

open List

namespace Bitmap

/-- The byte with only bit `i % 8` set. -/
def mask (i : ℕ) : UInt8 := 1 <<< UInt8.ofNat (i % 8)

/-- Set bit `i`. -/
def set (bm : List UInt8) (i : ℕ) : List UInt8 := bm.modify (i / 8) fun b => b ||| mask i

/-- Is bit `i` set? -/
def test (bm : List UInt8) (i : ℕ) : Bool := (bm.getD (i / 8) 0).toNat.testBit (i % 8)

/-- The bytes needed for `n` bits. -/
def bytes (n : ℕ) : ℕ := (n + 7) / 8

theorem div_lt_bytes {i n : ℕ} (h : i < n) : i / 8 < bytes n := by
  rw [bytes]
  omega

@[simp] theorem length_set (bm : List UInt8) (i : ℕ) : (set bm i).length = bm.length := by
  rw [set, length_modify]

theorem toNat_mask (i : ℕ) : (mask i).toNat = 2 ^ (i % 8) := by
  have h8 : i % 8 < 8 := Nat.mod_lt _ (by decide)
  rw [mask]
  interval_cases i % 8 <;> rfl

theorem testBit_or_mask (b : UInt8) (i j : ℕ) :
    (b ||| mask i).toNat.testBit (j % 8) =
      (b.toNat.testBit (j % 8) || decide (i % 8 = j % 8)) := by
  rw [UInt8.toNat_or, Nat.testBit_or, toNat_mask, Nat.testBit_two_pow]

theorem test_set (bm : List UInt8) {i : ℕ} (hi : i / 8 < bm.length) (j : ℕ) :
    test (set bm i) j = (test bm j || decide (i = j)) := by
  by_cases hdiv : i / 8 = j / 8
  · have hget : (set bm i).getD (j / 8) 0 = bm.getD (j / 8) 0 ||| mask i := by
      simp only [set, getD_eq_getElem?_getD, getElem?_modify, if_pos hdiv]
      rw [getElem?_eq_getElem (by omega)]
      rfl
    have hiff : (i % 8 = j % 8) ↔ (i = j) := by
      constructor
      · intro h
        omega
      · intro h
        rw [h]
    rw [test, hget, testBit_or_mask, test, decide_eq_decide.mpr hiff]
  · have hget : (set bm i).getD (j / 8) 0 = bm.getD (j / 8) 0 := by
      simp only [set, getD_eq_getElem?_getD, getElem?_modify, if_neg hdiv, id_map']
    have hne : i ≠ j := fun h => hdiv (by rw [h])
    rw [test, hget, decide_eq_false hne, Bool.or_false, test]

theorem of_test_set {bm : List UInt8} {i j : ℕ} (h : test (set bm i) j = true) :
    test bm j = true ∨ i = j := by
  rcases Nat.lt_or_ge (i / 8) bm.length with hi | hi
  · rw [test_set bm hi, Bool.or_eq_true, decide_eq_true_eq] at h
    exact h
  · rw [set, modify_eq_self hi] at h
    exact .inl h

theorem of_test_take {bm : List UInt8} {n i : ℕ} (h : test (bm.take n) i = true) :
    test bm i = true := by
  rw [test, getD_eq_getElem?_getD] at h
  rw [test, getD_eq_getElem?_getD]
  rcases Nat.lt_or_ge (i / 8) n with hi | hi
  · rw [getElem?_take_of_lt hi] at h
    exact h
  · rw [getElem?_take_eq_none hi] at h
    exact absurd (h.symm.trans (Nat.zero_testBit _)) Bool.true_eq_false.mp

theorem test_replicate_zero (n i : ℕ) : test (replicate n 0) i = false := by
  have hget : (replicate n (0 : UInt8)).getD (i / 8) 0 = 0 := by
    rw [getD_eq_getElem?_getD, getElem?_replicate]
    by_cases h : i / 8 < n
    · rw [if_pos h]
      rfl
    · rw [if_neg h]
      rfl
  rw [test, hget]
  exact Nat.zero_testBit _

theorem test_replicate_full {n i : ℕ} (h : i / 8 < n) :
    test (replicate n 0xFF) i = true := by
  have hget : (replicate n (0xFF : UInt8)).getD (i / 8) 0 = 0xFF := by
    rw [getD_eq_getElem?_getD, getElem?_replicate, if_pos h]
    rfl
  have h8 : i % 8 < 8 := Nat.mod_lt _ (by decide)
  rw [test, hget]
  interval_cases i % 8 <;> decide

end Bitmap

end BrixCache
