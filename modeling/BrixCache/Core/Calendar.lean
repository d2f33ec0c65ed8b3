import Mathlib.Data.Int.Notation
import Mathlib.Tactic.Common

/-!
# The calendar

`timegm` and `gmtime_r`: seconds since 1970 as a date and a time of day in UTC, by eras
of 400 years that start in March.
-/

namespace BrixCache

/-- The fields of a `struct tm` that are read, the year and the month as they are written. -/
structure Tm : Type where
  year : ℤ
  mon : ℤ
  mday : ℤ
  hour : ℤ
  min : ℤ
  sec : ℤ
  deriving DecidableEq

/-- The days from 1970 to a day of a month, which may be outside of its year. -/
def daysFromCivil (year mon mday : ℤ) : ℤ :=
  let y := year + (mon - 1) / 12
  let m := (mon - 1) % 12 + 1
  let y := if m ≤ 2 then y - 1 else y
  let yoe := y % 400
  let doy := (153 * (if 2 < m then m - 3 else m + 9) + 2) / 5 + mday - 1
  y / 400 * 146097 + (yoe * 365 + yoe / 4 - yoe / 100 + doy) - 719468

def timegm (tm : Tm) : ℤ :=
  daysFromCivil tm.year tm.mon tm.mday * 86400 + tm.hour * 3600 + tm.min * 60 + tm.sec

/-- `gmtime_r` -/
def gmtime (t : ℤ) : Tm :=
  let z := t / 86400 + 719468
  let doe := z % 146097
  let yoe := (doe - doe / 1460 + doe / 36524 - doe / 146096) / 365
  let doy := doe - (365 * yoe + yoe / 4 - yoe / 100)
  let mp := (5 * doy + 2) / 153
  let mon := if mp < 10 then mp + 3 else mp - 9
  { year := yoe + z / 146097 * 400 + if mon ≤ 2 then 1 else 0
    mon
    mday := doy - (153 * mp + 2) / 5 + 1
    hour := t % 86400 / 3600
    min := t % 3600 / 60
    sec := t % 60 }

theorem doy_bounds {doe yoe : ℤ} (h₀ : 0 ≤ doe) (h₁ : doe < 146097)
    (hyoe : yoe = (doe - doe / 1460 + doe / 36524 - doe / 146096) / 365) :
    (0 ≤ yoe ∧ yoe < 400) ∧ 0 ≤ doe - (365 * yoe + yoe / 4 - yoe / 100) ∧
      doe - (365 * yoe + yoe / 4 - yoe / 100) ≤ 365 := by
  have hcentury : yoe / 100 = 0 ∨ yoe / 100 = 1 ∨ yoe / 100 = 2 ∨ yoe / 100 = 3 := by omega
  refine ⟨by omega, ?_, ?_⟩
  · rcases hcentury with hc | hc | hc | hc <;> omega
  · rcases hcentury with hc | hc | hc | hc <;> omega

theorem daysFromCivil_of_doy {yoe era doy mp : ℤ} (hyoe : 0 ≤ yoe ∧ yoe < 400)
    (hmp : mp = (5 * doy + 2) / 153) (h₀ : 0 ≤ doy) (h₁ : doy ≤ 365) :
    daysFromCivil (yoe + era * 400 + if (if mp < 10 then mp + 3 else mp - 9) ≤ 2 then 1 else 0)
      (if mp < 10 then mp + 3 else mp - 9) (doy - (153 * mp + 2) / 5 + 1) =
      era * 146097 + (yoe * 365 + yoe / 4 - yoe / 100 + doy) - 719468 := by
  have hmp' : 0 ≤ mp ∧ mp ≤ 11 := by omega
  by_cases hlate : mp < 10
  · have hm : ¬mp + 3 ≤ 2 := by omega
    have hmod : (mp + 3 - 1) % 12 + 1 = mp + 3 := by omega
    have hdiv : (mp + 3 - 1) / 12 = 0 := by omega
    have hlt : 2 < mp + 3 := by omega
    simp only [daysFromCivil, if_pos hlate, if_neg hm, hmod, hdiv, if_pos hlt]
    omega
  · have hm : mp - 9 ≤ 2 := by omega
    have hmod : (mp - 9 - 1) % 12 + 1 = mp - 9 := by omega
    have hdiv : (mp - 9 - 1) / 12 = 0 := by omega
    have hlt : ¬2 < mp - 9 := by omega
    simp only [daysFromCivil, if_neg hlate, if_pos hm, hmod, hdiv, if_neg hlt]
    omega

theorem timegm_gmtime (t : ℤ) : timegm (gmtime t) = t := by
  have hdoe : 0 ≤ (t / 86400 + 719468) % 146097 ∧ (t / 86400 + 719468) % 146097 < 146097 := by
    omega
  obtain ⟨hyoe, hdoy₀, hdoy₁⟩ := doy_bounds hdoe.1 hdoe.2 rfl
  simp only [timegm, gmtime]
  rw [daysFromCivil_of_doy hyoe rfl hdoy₀ hdoy₁]
  omega

theorem gmtime_time (t : ℤ) : (0 ≤ (gmtime t).hour ∧ (gmtime t).hour < 24) ∧
    (0 ≤ (gmtime t).min ∧ (gmtime t).min < 60) ∧ 0 ≤ (gmtime t).sec ∧ (gmtime t).sec < 60 := by
  simp only [gmtime]
  omega

theorem gmtime_date (t : ℤ) : (1 ≤ (gmtime t).mon ∧ (gmtime t).mon ≤ 12) ∧
    1 ≤ (gmtime t).mday ∧ (gmtime t).mday ≤ 31 := by
  have hdoe : 0 ≤ (t / 86400 + 719468) % 146097 ∧ (t / 86400 + 719468) % 146097 < 146097 := by
    omega
  obtain ⟨-, hdoy₀, hdoy₁⟩ := doy_bounds hdoe.1 hdoe.2 rfl
  simp only [gmtime]
  omega

end BrixCache
