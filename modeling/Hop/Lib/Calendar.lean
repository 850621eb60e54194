import Mathlib

/-!
# The Gregorian calendar

The proleptic calendar from the year 0 on, by counting: `ordinal` is the number of days from
0000-01-01 to a date, the days of the years before it, of the months before it, and its own.
`ordinal_eq` has the years as a formula.
-/

namespace Hop.Calendar

open Finset

def IsLeap (y : ℕ) : Prop := y % 4 = 0 ∧ (y % 100 ≠ 0 ∨ y % 400 = 0)

instance (y : ℕ) : Decidable (IsLeap y) := inferInstanceAs (Decidable (_ ∧ _))

def yearLength (y : ℕ) : ℕ := if IsLeap y then 366 else 365

def monthLength (y m : ℕ) : ℕ :=
  if m = 2 then if IsLeap y then 29 else 28
  else if m = 4 ∨ m = 6 ∨ m = 9 ∨ m = 11 then 30
  else 31

/-- A day that exists in its month of its year. -/
structure IsDate (y m d : ℕ) : Prop where
  one_le_month : 1 ≤ m
  month_le : m ≤ 12
  one_le_day : 1 ≤ d
  day_le : d ≤ monthLength y m

/-- The number of days from 0000-01-01 to a date. -/
def ordinal (y m d : ℕ) : ℕ :=
  ∑ k ∈ range y, yearLength k + ∑ j ∈ Ico 1 m, monthLength y j + (d - 1)

/-- The leap years before a year. -/
def leapsBefore (y : ℕ) : ℕ := (y + 3) / 4 - (y + 99) / 100 + (y + 399) / 400

theorem leapsBefore_succ (y : ℕ) :
    leapsBefore (y + 1) = leapsBefore y + if IsLeap y then 1 else 0 := by
  -- of three consecutive quotients one steps exactly at a multiple
  have hfour : (y + 1 + 3) / 4 = (y + 3) / 4 + if y % 4 = 0 then 1 else 0 := by
    split_ifs <;> omega
  have hcentury : (y + 1 + 99) / 100 = (y + 99) / 100 + if y % 100 = 0 then 1 else 0 := by
    split_ifs <;> omega
  have hera : (y + 1 + 399) / 400 = (y + 399) / 400 + if y % 400 = 0 then 1 else 0 := by
    split_ifs <;> omega
  have hle : (y + 99) / 100 ≤ (y + 3) / 4 := by omega
  have hin : y % 400 = 0 → y % 100 = 0 := by omega
  have hin' : y % 100 = 0 → y % 4 = 0 := by omega
  unfold leapsBefore IsLeap
  rw [hfour, hcentury, hera]
  by_cases h4 : y % 4 = 0
  · by_cases h100 : y % 100 = 0
    · by_cases h400 : y % 400 = 0
      · simp only [h4, h100, h400, ne_eq, not_true_eq_false, or_true, and_self, if_true]
        omega
      · simp only [h4, h100, h400, ne_eq, not_true_eq_false, or_self, and_false, if_true, if_false]
        omega
    · have h400 : ¬ y % 400 = 0 := fun h => h100 (hin h)
      simp only [h4, h100, h400, ne_eq, not_false_eq_true, true_or, and_self, if_true, if_false]
      omega
  · have h100 : ¬ y % 100 = 0 := fun h => h4 (hin' h)
    have h400 : ¬ y % 400 = 0 := fun h => h100 (hin h)
    simp only [h4, h100, h400, false_and, if_false]
    omega

/-- The leap years up to a year. -/
theorem leapsBefore_pred {y : ℕ} (h : 1 ≤ y) :
    leapsBefore y = (y - 1) / 4 - (y - 1) / 100 + (y - 1) / 400 + 1 := by
  obtain ⟨k, rfl⟩ : ∃ k, y = k + 1 := ⟨y - 1, by omega⟩
  have hfour : (k + 1 + 3) / 4 = k / 4 + 1 := by omega
  have hcentury : (k + 1 + 99) / 100 = k / 100 + 1 := by omega
  have hera : (k + 1 + 399) / 400 = k / 400 + 1 := by omega
  have hle : k / 100 ≤ k / 4 := by omega
  rw [leapsBefore, hfour, hcentury, hera, Nat.add_sub_cancel]
  omega

theorem leapsBefore_large {y : ℕ} (h : 1970 ≤ y) : 478 ≤ leapsBefore y := by
  induction y, h using Nat.le_induction with
  | base => decide
  | succ y _ ih =>
    rw [leapsBefore_succ]
    omega

theorem sum_yearLength (y : ℕ) : ∑ k ∈ range y, yearLength k = 365 * y + leapsBefore y := by
  induction y with
  | zero => rfl
  | succ y ih =>
    rw [sum_range_succ, ih, leapsBefore_succ, yearLength]
    split_ifs
    · omega
    · omega

/-- The days of the months before a month. -/
def daysBefore (y m : ℕ) : ℕ :=
  [0, 31, 59, 90, 120, 151, 181, 212, 243, 273, 304, 334].getD (m - 1) 0 +
    if 2 < m ∧ IsLeap y then 1 else 0

theorem daysBefore_succ {y m : ℕ} (h1 : 1 ≤ m) (h12 : m < 12) :
    daysBefore y (m + 1) = daysBefore y m + monthLength y m := by
  unfold daysBefore monthLength
  by_cases h : IsLeap y
  · simp only [h, and_true, if_true]
    interval_cases m <;> rfl
  · simp only [h, and_false, if_false]
    interval_cases m <;> rfl

theorem sum_monthLength {y m : ℕ} (h1 : 1 ≤ m) (h12 : m ≤ 12) :
    ∑ j ∈ Ico 1 m, monthLength y j = daysBefore y m := by
  induction m, h1 using Nat.le_induction with
  | base => rfl
  | succ m h1 ih =>
    rw [sum_Ico_succ_top h1, ih (Nat.le_of_succ_le h12), daysBefore_succ h1 h12]

theorem ordinal_eq {y m d : ℕ} (h1 : 1 ≤ m) (h12 : m ≤ 12) :
    ordinal y m d = 365 * y + leapsBefore y + daysBefore y m + (d - 1) := by
  rw [ordinal, sum_yearLength, sum_monthLength h1 h12]

end Hop.Calendar
