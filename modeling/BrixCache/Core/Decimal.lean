import Mathlib.Data.Int.Notation
import Mathlib.Tactic.Common

/-!
# Numbers in decimal
-/

namespace BrixCache

open List

/-- The digits of a number, as many as there is fuel for. -/
def decimalFrom : ℕ → ℕ → List UInt8
  | 0, _ => []
  | fuel + 1, n =>
    (if n < 10 then [] else decimalFrom fuel (n / 10)) ++ [UInt8.ofNat (n % 10 + 48)]

/-- `%04d` and `%02d`, of a number that is not negative -/
def decimal (width : ℕ) (n : ℤ) : List UInt8 :=
  let digits := decimalFrom (n.toNat + 1) n.toNat
  replicate (width - digits.length) 48 ++ digits

def digit (n : ℕ) : UInt8 := UInt8.ofNat (n + 48)

theorem digit_toNat {n : ℕ} (h : n < 10) : (digit n).toNat = n + 48 := by
  rw [digit, UInt8.toNat_ofNat']
  omega

theorem decimalFrom_fuel {fuel fuel' n : ℕ} (h : n < fuel) (h' : n < fuel') :
    decimalFrom fuel n = decimalFrom fuel' n := by
  induction fuel generalizing fuel' n with
  | zero => omega
  | succ fuel ih =>
    obtain ⟨fuel', rfl⟩ : ∃ k, fuel' = k + 1 := ⟨fuel' - 1, by omega⟩
    rw [decimalFrom, decimalFrom]
    split
    · rfl
    · rw [ih (by omega) (by omega : n / 10 < fuel')]

def digits (n : ℕ) : List UInt8 := decimalFrom (n + 1) n

theorem digits_small {n : ℕ} (h : n < 10) : digits n = [digit n] := by
  rw [digits, decimalFrom, if_pos h, Nat.mod_eq_of_lt h]
  rfl

theorem digits_more {n : ℕ} (h : 10 ≤ n) : digits n = digits (n / 10) ++ [digit (n % 10)] := by
  rw [digits, decimalFrom, if_neg (by omega), digits,
    decimalFrom_fuel (by omega) (by omega : n / 10 < n / 10 + 1)]
  rfl

theorem of_mem_digits {n : ℕ} {c : UInt8} (h : c ∈ digits n) : ∃ d, d < 10 ∧ c = digit d := by
  induction n using Nat.strongRecOn with
  | ind n ih =>
    by_cases hn : n < 10
    · rw [digits_small hn] at h
      exact ⟨n, hn, mem_singleton.mp h⟩
    · have hmore : 10 ≤ n := Nat.le_of_not_lt hn
      rw [digits_more hmore, mem_append] at h
      rcases h with h | h
      · exact ih (n / 10) (Nat.div_lt_self (Nat.lt_of_lt_of_le (by decide) hmore) (by decide)) h
      · exact ⟨n % 10, Nat.mod_lt n (by decide), mem_singleton.mp h⟩

/-- The number some digits stand for -/
def digitsValue (text : List UInt8) : ℕ := text.foldl (fun v b => v * 10 + (b.toNat - 48)) 0

theorem digitsValue_digits (n : ℕ) : digitsValue (digits n) = n := by
  induction n using Nat.strongRecOn with
  | ind n ih =>
    by_cases h : n < 10
    · rw [digits_small h]
      simp [digitsValue, digit_toNat h]
    · have hmore : 10 ≤ n := Nat.le_of_not_lt h
      have hlast : n % 10 < 10 := Nat.mod_lt n (by decide)
      have hrec := ih (n / 10) (Nat.div_lt_self (Nat.lt_of_lt_of_le (by decide) hmore) (by decide))
      rw [digits_more hmore, digitsValue, foldl_append]
      change (digitsValue (digits (n / 10))) * 10 + ((digit (n % 10)).toNat - 48) = n
      rw [hrec, digit_toNat hlast, Nat.add_sub_cancel]
      omega

theorem digits_inj {n m : ℕ} (h : digits n = digits m) : n = m := by
  rw [← digitsValue_digits n, h, digitsValue_digits]

end BrixCache
