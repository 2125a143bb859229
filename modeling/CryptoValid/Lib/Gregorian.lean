import Mathlib.Tactic.IntervalCases
import Mathlib.Tactic.NormNum

/-!
This module contains the Gregorian calendar as a count of days, with the closed formulas that
libraries use for it.
-/

namespace Gregorian

def isLeap (y : Nat) : Bool := (y % 4 = 0 && y % 100 ≠ 0) || y % 400 = 0

def monthLength (y mo : Nat) : Nat :=
  if mo = 2 then (if isLeap y then 29 else 28)
  else if mo = 4 ∨ mo = 6 ∨ mo = 9 ∨ mo = 11 then 30
  else 31

def daysBeforeMonth (y mo : Nat) : Nat :=
  ((List.range (mo - 1)).map fun m => monthLength y (m + 1)).sum

def yearLength (y : Nat) : Nat := daysBeforeMonth y 13

def daysBeforeYear (y : Nat) : Nat := ((List.range (y - 1)).map fun i => yearLength (i + 1)).sum

/--
The number of days from 0001-01-01 to a date, counted year by year and month by month.
-/
def dayNumber (y mo d : Nat) : Nat := daysBeforeYear y + daysBeforeMonth y mo + (d - 1)

/--
One of the dates of the calendar.
-/
def IsDate (y mo d : Nat) : Prop := 1 ≤ y ∧ 1 ≤ mo ∧ mo ≤ 12 ∧ 1 ≤ d ∧ d ≤ monthLength y mo

theorem isLeap_iff (y : Nat) : isLeap y = true ↔ y % 4 = 0 ∧ y % 100 ≠ 0 ∨ y % 400 = 0 := by
  simp [isLeap]

/--
What a leap year has more.
-/
def leapDay (y : Nat) : Nat := if isLeap y then 1 else 0

theorem leapDay_eq (y : Nat)
    : leapDay y + (y - 1) / 4 + y / 100 + (y - 1) / 400 = y / 4 + (y - 1) / 100 + y / 400 ∨ y = 0 := by
  rw [leapDay]
  split
  . next h =>
    rw [isLeap_iff] at h
    omega
  . next h =>
    rw [isLeap_iff] at h
    omega

/--
The months by their number of days in a common year.
-/
def commonDaysBefore (mo : Nat) : Nat :=
  [0, 31, 59, 90, 120, 151, 181, 212, 243, 273, 304, 334, 365].getD (mo - 1) 0

theorem daysBeforeMonth_eq {y mo : Nat} (hmo : 1 ≤ mo) (hle : mo ≤ 13)
    : daysBeforeMonth y mo = commonDaysBefore mo + if 2 < mo then leapDay y else 0 := by
  rw [daysBeforeMonth, leapDay]
  cases h : isLeap y <;> interval_cases mo <;>
    simp [List.range_succ, monthLength, commonDaysBefore, h]

theorem yearLength_eq (y : Nat) : yearLength y = 365 + leapDay y := by
  rw [yearLength, daysBeforeMonth_eq (by omega) (by omega)]
  rfl

theorem daysBeforeYear_eq {y : Nat} (hy : 1 ≤ y)
    : daysBeforeYear y + (y - 1) / 100 = (y - 1) * 365 + (y - 1) / 4 + (y - 1) / 400 := by
  induction y, hy using Nat.le_induction with
  | base => rfl
  | succ y hy ih =>
    have hstep : daysBeforeYear (y + 1) = daysBeforeYear y + yearLength y := by
      rw [daysBeforeYear, daysBeforeYear, Nat.add_sub_cancel]
      rcases Nat.exists_eq_add_of_le' hy with ⟨n, rfl⟩
      rw [Nat.add_sub_cancel, List.range_succ, List.map_append, List.sum_append]
      simp
    rw [hstep, yearLength_eq]
    have hleap := leapDay_eq y
    omega

theorem dayNumber_1970 : dayNumber 1970 1 1 = 719162 := by
  have hyear := daysBeforeYear_eq (y := 1970) (by omega)
  rw [dayNumber]
  generalize daysBeforeYear 1970 = n at hyear ⊢
  have hmonth : daysBeforeMonth 1970 1 = 0 := rfl
  omega

end Gregorian
