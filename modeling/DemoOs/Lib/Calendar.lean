import Mathlib.Data.Int.Basic
import Mathlib.Data.Int.LeastGreatest
import Mathlib.Tactic.SplitIfs

/-!
# The Gregorian calendar

Dates of the (proleptic) Gregorian calendar, with the months counted from zero, and times of day,
all in UTC. Days are counted from 1970-01-01, a Thursday (`Date.dayNumber`), and seconds from its
midnight (`DateTime.seconds`). Before it they are counted negative, and every number is that of a
day and of a second (`Date.exists_dayNumber`, `DateTime.exists_seconds`).
-/

namespace DemoOs

namespace Calendar

/-- Every fourth year, but of the centuries only every fourth. -/
def IsLeap (y : ℤ) : Prop := y % 4 = 0 ∧ (y % 100 ≠ 0 ∨ y % 400 = 0)

instance instDecidableIsLeap (y : ℤ) : Decidable (IsLeap y) := inferInstanceAs (Decidable (_ ∧ _))

def daysInYear (y : ℤ) : ℤ := if IsLeap y then 366 else 365

def daysInMonth (y : ℤ) (m : ℕ) : ℤ :=
  if m = 1 then (if IsLeap y then 29 else 28)
  else if m = 3 ∨ m = 5 ∨ m = 8 ∨ m = 10 then 30
  else 31

/-- The days of the year before the month. -/
def daysBeforeMonth (y : ℤ) : ℕ → ℤ
  | 0 => 0
  | m + 1 => daysBeforeMonth y m + daysInMonth y m

/-- The days from 0001-01-01 to the first of the year. -/
def daysBeforeYear (y : ℤ) : ℤ := 365 * (y - 1) + (y - 1) / 4 - (y - 1) / 100 + (y - 1) / 400

variable {y : ℤ} {m : ℕ}

theorem daysBeforeYear_succ : daysBeforeYear (y + 1) = daysBeforeYear y + daysInYear y := by
  unfold daysBeforeYear daysInYear IsLeap
  split_ifs <;> omega

theorem daysInYear_mem : 0 ≤ daysInYear y ∧ daysInYear y ≤ 366 := by
  unfold daysInYear
  split_ifs <;> omega

/-- Later years begin later. -/
theorem daysBeforeYear_mono {z : ℤ} (h : y ≤ z) : daysBeforeYear y ≤ daysBeforeYear z := by
  obtain ⟨n, rfl⟩ := Int.le.dest h
  induction n with
  | zero => simp
  | succ n ih =>
    have hlast := daysBeforeYear_succ (y := y + n)
    have hpos := daysInYear_mem (y := y + n)
    rw [Int.natCast_succ, ← Int.add_assoc, hlast]
    have := ih (by omega)
    omega

theorem daysBeforeMonth_twelve : daysBeforeMonth y 12 = daysInYear y := by
  by_cases h : IsLeap y <;> simp [daysBeforeMonth, daysInMonth, daysInYear, h]

theorem daysInMonth_pos : 0 < daysInMonth y m := by
  unfold daysInMonth
  split_ifs <;> omega

/-- Later months begin later. -/
theorem daysBeforeMonth_mono {n : ℕ} (h : m ≤ n) : daysBeforeMonth y m ≤ daysBeforeMonth y n := by
  induction h with
  | refl => exact Int.le_refl _
  | step _ ih => exact Int.le_trans ih (Int.le_add_of_nonneg_right (Int.le_of_lt daysInMonth_pos))

/-- Every day is in a year. -/
theorem exists_year (n : ℤ) : ∃ y, daysBeforeYear y ≤ n ∧ n < daysBeforeYear (y + 1) := by
  obtain ⟨y, hbegin, hlast⟩ := Int.exists_greatest_of_bdd (P := fun y => daysBeforeYear y ≤ n)
    ⟨max n 0 + 1, fun y hy => by unfold daysBeforeYear at hy; omega⟩
    ⟨min n 0, by unfold daysBeforeYear; omega⟩
  refine ⟨y, hbegin, ?_⟩
  by_contra hnext
  have := hlast (y + 1) (Int.not_lt.1 hnext)
  omega

/-- Every day of a year is in a month. -/
theorem exists_month {n : ℤ} (h₀ : 0 ≤ n) :
    ∀ k, n < daysBeforeMonth y k → ∃ m < k, daysBeforeMonth y m ≤ n ∧ n < daysBeforeMonth y (m + 1)
  | 0, h => absurd h (Int.not_lt.2 h₀)
  | k + 1, h => by
    rcases Int.lt_or_le n (daysBeforeMonth y k) with hlt | hle
    · obtain ⟨m, hm, hn⟩ := exists_month h₀ k hlt
      exact ⟨m, by omega, hn⟩
    · exact ⟨k, Nat.lt_succ_self k, hle, h⟩

/-- A day of the calendar. -/
structure Date where
  year : ℤ
  month : ℕ
  day : ℤ
  month_lt : month < 12
  one_le_day : 1 ≤ day
  day_le : day ≤ daysInMonth year month

namespace Date

variable (d : Date)

/-- Days since the first of the year. -/
def dayOfYear : ℤ := daysBeforeMonth d.year d.month + d.day - 1

/-- Days since 1970-01-01. -/
def dayNumber : ℤ := daysBeforeYear d.year - daysBeforeYear 1970 + d.dayOfYear

/-- Days since Sunday. -/
def weekday : ℤ := (d.dayNumber + 4) % 7

theorem dayOfYear_nonneg : 0 ≤ d.dayOfYear := by
  have hmonth : daysBeforeMonth d.year 0 ≤ daysBeforeMonth d.year d.month :=
    daysBeforeMonth_mono (Nat.zero_le _)
  have hday := d.one_le_day
  rw [dayOfYear]
  rw [daysBeforeMonth] at hmonth
  omega

theorem dayOfYear_lt : d.dayOfYear < daysInYear d.year := by
  have hnext : daysBeforeMonth d.year (d.month + 1) ≤ daysBeforeMonth d.year 12 :=
    daysBeforeMonth_mono d.month_lt
  have hday := d.day_le
  rw [dayOfYear, ← daysBeforeMonth_twelve]
  rw [daysBeforeMonth] at hnext
  omega

/-- Days of years before 1970 are counted negative. -/
theorem le_year_of_nonneg (h : 0 ≤ d.dayNumber) : 1970 ≤ d.year := by
  by_contra hlt
  have hbegin : daysBeforeYear (d.year + 1) ≤ daysBeforeYear 1970 := daysBeforeYear_mono (by omega)
  have hyday := d.dayOfYear_lt
  rw [daysBeforeYear_succ] at hbegin
  rw [dayNumber] at h
  omega

/-- Days before the first of a year are of the years before it. -/
theorem year_lt_of_lt {y : ℤ} (h : d.dayNumber < daysBeforeYear y - daysBeforeYear 1970) :
    d.year < y := by
  by_contra hle
  have hbegin : daysBeforeYear y ≤ daysBeforeYear d.year := daysBeforeYear_mono (by omega)
  have hyday := d.dayOfYear_nonneg
  rw [dayNumber] at h
  omega

/-- Every number is that of a day. -/
theorem exists_dayNumber (n : ℤ) : ∃ d : Date, d.dayNumber = n := by
  obtain ⟨y, hbegin, hnext⟩ := exists_year (n + daysBeforeYear 1970)
  rw [daysBeforeYear_succ, ← daysBeforeMonth_twelve] at hnext
  obtain ⟨m, hm, hfirst, hlast⟩ := exists_month (y := y)
    (n := n + daysBeforeYear 1970 - daysBeforeYear y) (by omega) 12 (by omega)
  rw [daysBeforeMonth] at hlast
  refine ⟨⟨y, m, n + daysBeforeYear 1970 - daysBeforeYear y - daysBeforeMonth y m + 1, hm, by omega,
    by omega⟩, ?_⟩
  rw [dayNumber, dayOfYear]
  dsimp only
  omega

end Date

/-- A second of the calendar. -/
structure DateTime extends Date where
  hour : ℤ
  min : ℤ
  sec : ℤ
  hour_mem : 0 ≤ hour ∧ hour < 24
  min_mem : 0 ≤ min ∧ min < 60
  sec_mem : 0 ≤ sec ∧ sec < 60

/-- Seconds since 1970-01-01T00:00:00. -/
def DateTime.seconds (d : DateTime) : ℤ :=
  86400 * d.dayNumber + 3600 * d.hour + 60 * d.min + d.sec

theorem DateTime.seconds_ediv (d : DateTime) : d.seconds / 86400 = d.dayNumber := by
  have := d.hour_mem
  have := d.min_mem
  have := d.sec_mem
  unfold seconds
  omega

/-- Every number is that of a second. -/
theorem DateTime.exists_seconds (t : ℤ) : ∃ d : DateTime, d.seconds = t := by
  obtain ⟨d, hd⟩ := Date.exists_dayNumber (t / 86400)
  refine ⟨⟨d, t % 86400 / 3600, t % 3600 / 60, t % 60, by omega, by omega, by omega⟩, ?_⟩
  rw [seconds]
  dsimp only
  omega

end Calendar

end DemoOs
