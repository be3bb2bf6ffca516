import Mathlib.Data.Int.Order.Basic
import Mathlib.Tactic.Common
import Mathlib.Tactic.NormNum

/-!
# Civil dates

The days are counted from an epoch, and the months through all years.  A month starts on
the day on which the month before it ends, so a day lies in one month alone: the year is
found by an estimate that is at most one year off, and the month in it by its first day.
-/

namespace LuaServer

namespace CivilDates

def isLeap (year : Int) : Bool :=
  year % 4 = 0 && (year % 100 ≠ 0 || year % 400 = 0)

/-- The length of a month, from 0 for January. -/
def lengthIn (leap : Bool) : Nat → Int
  | 1 => if leap then 29 else 28
  | 3 | 5 | 8 | 10 => 30
  | _ => 31

/-- The days of the year before a month. -/
def daysBefore (leap : Bool) : Nat → Int
  | 0 => 0
  | month + 1 => daysBefore leap month + lengthIn leap month

/-- The first day of a year. -/
def yearStart (year : Int) : Int :=
  365 * year + (year - 1) / 4 - (year - 1) / 100 + (year - 1) / 400

/-- The length of a month, counted through all years. -/
def monthLength (month : Int) : Int :=
  lengthIn (isLeap (month / 12)) (month % 12).toNat

/-- The first day of a month, counted through all years. -/
def monthStart (month : Int) : Int :=
  yearStart (month / 12) + daysBefore (isLeap (month / 12)) (month % 12).toNat

/-- The year of a day. -/
def yearOf (day : Int) : Int :=
  let estimate := day * 400 / 146097
  if day < yearStart estimate then estimate - 1
  else if yearStart (estimate + 1) ≤ day then estimate + 1
  else estimate

/-- The last month up to a given one that has begun on a day of the year. -/
def monthUpTo (leap : Bool) (dayOfYear : Int) : Nat → Nat
  | 0 => 0
  | month + 1 =>
      if daysBefore leap (month + 1) ≤ dayOfYear then month + 1
      else monthUpTo leap dayOfYear month

/-- The month of a day, counted through all years. -/
def monthOf (day : Int) : Int :=
  let year := yearOf day
  12 * year + monthUpTo (isLeap year) (day - yearStart year) 11

theorem isLeap_iff {year : Int} :
    isLeap year = true ↔ year % 4 = 0 ∧ (year % 100 ≠ 0 ∨ year % 400 = 0) := by
  simp [isLeap]

theorem daysBefore_succ (leap : Bool) (month : Nat) :
    daysBefore leap (month + 1) = daysBefore leap month + lengthIn leap month :=
  rfl

theorem daysBefore_twelve (leap : Bool) : daysBefore leap 12 = if leap then 366 else 365 := by
  cases leap <;> decide

theorem lengthIn_bounds (leap : Bool) (month : Nat) :
    28 ≤ lengthIn leap month ∧ lengthIn leap month ≤ 31 := by
  unfold lengthIn
  split
  · split <;> omega
  · omega
  · omega
  · omega
  · omega
  · omega

theorem yearStart_succ (year : Int) :
    yearStart (year + 1) = yearStart year + daysBefore (isLeap year) 12 := by
  rw [daysBefore_twelve]
  by_cases leap : isLeap year = true
  · rw [if_pos leap]
    have divides := isLeap_iff.mp leap
    simp only [yearStart]
    omega
  · rw [if_neg leap]
    have divides := mt isLeap_iff.mpr leap
    simp only [yearStart]
    omega

theorem monthStart_succ (month : Int) :
    monthStart (month + 1) = monthStart month + monthLength month := by
  simp only [monthStart, monthLength]
  by_cases december : month % 12 = 11
  · have nextYear : (month + 1) / 12 = month / 12 + 1 := by omega
    have january : (month + 1) % 12 = 0 := by omega
    rw [nextYear, january, december, yearStart_succ]
    change yearStart (month / 12) + (daysBefore _ 11 + lengthIn _ 11) + 0 =
      yearStart (month / 12) + daysBefore _ 11 + lengthIn _ 11
    rw [add_zero, add_assoc]
  · have sameYear : (month + 1) / 12 = month / 12 := by omega
    have following : ((month + 1) % 12).toNat = (month % 12).toNat + 1 := by omega
    rw [sameYear, following, daysBefore, add_assoc]

theorem monthLength_bounds (month : Int) : 28 ≤ monthLength month ∧ monthLength month ≤ 31 :=
  lengthIn_bounds _ _

theorem monthStart_lt_iff {first second : Int} :
    monthStart first < monthStart second ↔ first < second := by
  have increasing : ∀ month, monthStart month < monthStart (month + 1) := by
    intro month
    have length := (monthLength_bounds month).1
    rw [monthStart_succ]
    omega
  exact (strictMono_int_of_lt_succ increasing).lt_iff_lt

theorem yearOf_spec (day : Int) :
    yearStart (yearOf day) ≤ day ∧ day < yearStart (yearOf day + 1) := by
  have below : yearStart (day * 400 / 146097 - 1) ≤ day := by
    simp only [yearStart]
    omega
  have above : day < yearStart (day * 400 / 146097 + 1 + 1) := by
    simp only [yearStart]
    omega
  simp only [yearOf]
  split
  next early => exact ⟨below, by simpa using early⟩
  next notEarly =>
    split
    next late => exact ⟨late, above⟩
    next notLate => exact ⟨not_lt.mp notEarly, not_le.mp notLate⟩

theorem monthUpTo_spec {leap : Bool} {dayOfYear : Int} (nonneg : 0 ≤ dayOfYear) (month : Nat) :
    monthUpTo leap dayOfYear month ≤ month ∧
      daysBefore leap (monthUpTo leap dayOfYear month) ≤ dayOfYear ∧
      (monthUpTo leap dayOfYear month < month →
        dayOfYear < daysBefore leap (monthUpTo leap dayOfYear month + 1)) := by
  induction month with
  | zero => exact ⟨le_refl 0, nonneg, fun less => absurd less (lt_irrefl 0)⟩
  | succ month ih =>
      rw [monthUpTo]
      split
      next begun => exact ⟨le_refl _, begun, fun less => absurd less (lt_irrefl _)⟩
      next notBegun =>
        obtain ⟨upTo, begun, next⟩ := ih
        refine ⟨upTo.trans (Nat.le_succ month), begun, fun _ => ?_⟩
        rcases upTo.lt_or_eq with less | same
        · exact next less
        · rw [same]
          exact not_le.mp notBegun

theorem monthOf_spec (day : Int) :
    monthStart (monthOf day) ≤ day ∧ day < monthStart (monthOf day + 1) := by
  obtain ⟨started, notOver⟩ := yearOf_spec day
  rw [yearStart_succ] at notOver
  obtain ⟨upTo, begun, next⟩ := @monthUpTo_spec (isLeap (yearOf day)) (day - yearStart (yearOf day))
    (by omega) 11
  have sameYear : monthOf day / 12 = yearOf day := by
    simp only [monthOf]
    omega
  have sameMonth : (monthOf day % 12).toNat =
      monthUpTo (isLeap (yearOf day)) (day - yearStart (yearOf day)) 11 := by
    simp only [monthOf]
    omega
  rw [monthStart_succ]
  simp only [monthStart, monthLength, sameYear, sameMonth]
  refine ⟨by omega, ?_⟩
  rw [add_assoc, ← daysBefore_succ]
  rcases upTo.lt_or_eq with less | december
  · have := next less
    omega
  · rw [december]
    exact notOver

/-- The month of a day is the one that has begun and is not over. -/
theorem monthOf_eq {day month : Int} (started : monthStart month ≤ day)
    (notOver : day < monthStart (month + 1)) : monthOf day = month := by
  obtain ⟨isStarted, isNotOver⟩ := monthOf_spec day
  have upTo := monthStart_lt_iff.mp (lt_of_le_of_lt isStarted notOver)
  have atLeast := monthStart_lt_iff.mp (lt_of_le_of_lt started isNotOver)
  omega

end CivilDates

end LuaServer
