import DemoOs.Types
import DemoOs.Lib.Calendar
import Mathlib.Tactic.IntervalCases

/-!
# Broken-down time

The conversions of `tmtime.cpp`, between seconds since the epoch and broken-down UTC time. `long` is
of 32 bits.

* `time2tm` adds the days from 0000-03-01 to the epoch, but counts years as if it had not. For every
  second it is wrong already in the day of the week, which is the one after (`time2tm_wday`,
  `not_converts`). The time of day is right (`fields_time`).
* `tm2time` asserts the opposite of what it needs. Where assertions are compiled in, it passes no
  year from 1970 on; where they are not, what it returns is right (`elapsed_eq`).
* From what `time2tm` makes of a second, `tm2time` never returns it: it is off by the days from
  0000-03-01 to the epoch (`elapsed_time2tm`, `not_counts`).
-/

namespace DemoOs

open Calendar

/-- `tm_t`, without the prefix `tm_` of its fields. -/
structure Tm where
  sec : ℤ
  min : ℤ
  hour : ℤ
  mday : ℤ
  mon : ℤ
  year : ℤ
  wday : ℤ
  yday : ℤ
  isdst : ℤ
  deriving DecidableEq

namespace Tm

def secondPreMinute : ℤ := 60
def secondPreHour : ℤ := 3600
def secondPreDay : ℤ := 86400
def daysPreWeek : ℤ := 7
def epochYearBase : ℤ := 1970
def timeYearBase : ℤ := 1900
def epochWDayBase : ℤ := 4
def daysPreYear : ℕ := 365
def EPOCH_ADJUSTMENT_DAYS : ℤ := 719468

/-- The first day of each month in a common year. -/
def daysArray : List ℤ := [0, 31, 59, 90, 120, 151, 181, 212, 243, 273, 304, 334]

/-- On an unsigned word. -/
def isleap (y : ℕ) : Bool := (y &&& 3 == 0 && y % 100 != 0) || y % 400 == 0

/-- The conversion to an unsigned word. -/
def toUnsigned (n : ℤ) : ℕ := (n % 2 ^ 32).toNat

/-- `_daysSinceEpoch_`. -/
def daysSinceEpoch (offsetYear curDays : ℤ) : ℤ :=
  if offsetYear ≥ 0 then sint (365 * offsetYear + (offsetYear + 1).tdiv 4 + curDays)
  else sint (365 * offsetYear + (offsetYear - 2).tdiv 4 + curDays)

/-- What `tm2time` computes behind its assertions. -/
def elapsed (sttm : Tm) : ℤ :=
  let t := daysSinceEpoch (sttm.year + (timeYearBase - epochYearBase)) sttm.yday
  let t := sint (t * (3600 * 24))
  sint (t + (sttm.sec + sttm.min * 60 + sttm.hour * 3600))

/-- Nothing is returned if an assertion fails. It is compiled in only with `_DEBUG`. -/
def tm2time (debug : Bool) (sttm : Tm) : Option ℤ :=
  if debug && !(sttm.year + timeYearBase < epochYearBase) then none else some (elapsed sttm)

section

-- What is read beyond the table of `getDayOfYear`, by index.
variable (stray : ℤ → ℤ)

def getDayOfYear (y mon day : ℤ) : ℤ :=
  let leap := if mon > 1 ∧ isleap (toUnsigned (y + timeYearBase)) = true then 1 else 0
  let first := if 0 ≤ mon ∧ mon < 12 then daysArray.getD mon.toNat 0 else stray mon
  sint (first + day + leap - 1)

/-- The loop for the year, which goes down from an estimate. -/
def findYear (days : ℤ) : ℕ → ℤ → Option ℤ
  | 0, year => if daysSinceEpoch year 0 > days then none else some year
  | fuel + 1, year =>
    if daysSinceEpoch year 0 > days then findYear days fuel (year - 1) else some year

/-- The loop for the month, which is left at `11` at the latest, and the indices it has read from
    the table. -/
def findMonth (y days : ℤ) : ℕ → ℤ → ℤ × List ℤ
  | 0, mon => (mon, [])
  | fuel + 1, mon =>
    if days ≥ getDayOfYear stray y (mon + 1) 0 ∧ mon < 11 then
      let (found, indices) := findMonth y days fuel (mon + 1)
      (found, (mon + 1) :: indices)
    else (mon, [mon + 1])

/-- The fields from the seconds of the day, the day of the week, the days and the year, and the
    indices read from the table of `getDayOfYear`. -/
def fields (rem wday days year : ℤ) : Tm × List ℤ :=
  let days := sint (days - daysSinceEpoch year 0)
  let year := year + epochYearBase
  let (mon, indices) := findMonth stray (year - timeYearBase) days 12 0
  let mday := sint (days - getDayOfYear stray (year - timeYearBase) mon 0) + 1
  ({ hour := rem.tdiv secondPreHour
     min := (rem.tmod secondPreHour).tdiv secondPreMinute
     sec := (rem.tmod secondPreHour).tmod secondPreMinute
     wday
     year := year - timeYearBase
     mon
     mday
     yday := getDayOfYear stray (year - timeYearBase) mon mday - 1
     isdst := 0 }, indices ++ [mon, mon])

/-- None is returned if the loop for the year does not end at zero or above. -/
def time2tm (tt : ℤ) : Option (Tm × List ℤ) :=
  let days := sint (tt.tdiv secondPreDay + EPOCH_ADJUSTMENT_DAYS)
  let rem := tt.tmod secondPreDay
  let (rem, days) := if rem < 0 then (rem + secondPreDay, days - 1) else (rem, days)
  let wday := (sint (days + epochWDayBase)).tmod daysPreWeek
  let wday := if wday < 0 then wday + daysPreWeek else wday
  -- `daysPreYear` is unsigned, and so is the quotient.
  let estimate := toUnsigned days / daysPreYear
  (findYear days estimate estimate).map (fields stray rem wday days)

end

/-- The broken-down time of a second of the calendar. -/
def ofDateTime (d : DateTime) : Tm where
  sec := d.sec
  min := d.min
  hour := d.hour
  mday := d.day
  mon := d.month
  year := d.year - 1900
  wday := d.weekday
  yday := d.dayOfYear
  isdst := 0

/-! ## The day of the year -/

theorem isleap_iff {y : ℕ} : isleap y = true ↔ IsLeap y := by
  have hand : y &&& 3 = y % 4 := Nat.and_two_pow_sub_one_eq_mod y 2
  rw [isleap, hand, IsLeap]
  simp only [Bool.or_eq_true, Bool.and_eq_true, beq_iff_eq, bne_iff_ne]
  omega

/-- The table is of the days before each month. -/
theorem daysArray_eq {y : ℤ} {m : ℕ} (hm : m < 12) :
    daysArray.getD m 0 + (if (m : ℤ) > 1 ∧ IsLeap y then 1 else 0) = daysBeforeMonth y m := by
  by_cases h : IsLeap y <;> simp only [h, and_true, and_false, if_false]
  all_goals
    interval_cases m <;> simp [daysArray, daysBeforeMonth, daysInMonth, h]

/-- Within its table, `getDayOfYear` counts the days of the year. -/
theorem getDayOfYear_eq (stray : ℤ → ℤ) {y day : ℤ} {m : ℕ} (hy : 1900 ≤ y) (hy' : y < 2 ^ 31)
    (hm : m < 12) (hday : -1000 ≤ day) (hday' : day ≤ 1000) :
    getDayOfYear stray (y - timeYearBase) m day = daysBeforeMonth y m + day - 1 := by
  have hyear : y - timeYearBase + timeYearBase = y := by omega
  have hunsigned : (toUnsigned y : ℤ) = y := by
    rw [toUnsigned, Int.emod_eq_of_lt (by omega) (by omega), Int.toNat_of_nonneg (by omega)]
  have hrange : (0 : ℤ) ≤ m ∧ (m : ℤ) < 12 := by omega
  have hleap : isleap (toUnsigned y) = true ↔ IsLeap y := by rw [isleap_iff, hunsigned]
  have htable : daysArray.getD m 0 + (if (m : ℤ) > 1 ∧ isleap (toUnsigned y) = true then 1 else 0) =
      daysBeforeMonth y m := by
    simp only [hleap]
    exact daysArray_eq hm
  have hnonneg : daysBeforeMonth y 0 ≤ daysBeforeMonth y m := daysBeforeMonth_mono (Nat.zero_le m)
  have hyear' : daysBeforeMonth y m ≤ daysBeforeMonth y 12 := daysBeforeMonth_mono (by omega)
  rw [daysBeforeMonth_twelve] at hyear'
  have hdays := daysInYear_mem (y := y)
  rw [daysBeforeMonth] at hnonneg
  rw [getDayOfYear, hyear, if_pos hrange, Int.toNat_natCast, sint_eq] <;> omega

/-! ## From the broken-down time -/

theorem daysSinceEpoch_eq {offset cur : ℤ} (h₀ : 0 ≤ offset) (h : offset ≤ 10000) (hc₀ : 0 ≤ cur)
    (hc : cur ≤ 366) : daysSinceEpoch offset cur = 365 * offset + (offset + 1) / 4 + cur := by
  rw [daysSinceEpoch, if_pos h₀, Int.tdiv_eq_ediv_of_nonneg (by omega), sint_eq] <;> omega

/-- Behind its assertions, `tm2time` counts the seconds since the epoch, as long as an `sint` holds
    them. -/
theorem elapsed_eq {d : DateTime} (h₀ : 0 ≤ d.seconds) (h : d.seconds < 2 ^ 31) :
    elapsed (ofDateTime d) = d.seconds := by
  have hhour := d.hour_mem
  have hmin := d.min_mem
  have hsec := d.sec_mem
  have hyday := d.dayOfYear_nonneg
  have hday := d.seconds_ediv
  have hyear : 1970 ≤ d.year := d.le_year_of_nonneg (by omega)
  have hyear' : d.year < 2039 := d.year_lt_of_lt (by
    have hend : daysBeforeYear 2039 - daysBeforeYear 1970 = 25202 := by decide
    omega)
  have hyday' := d.dayOfYear_lt
  have hdays := daysInYear_mem (y := d.year)
  -- No century between 1970 and 2038 is common, so that leap days come every fourth year.
  have hcount : daysSinceEpoch (d.year - 1900 + (timeYearBase - epochYearBase)) d.dayOfYear =
      d.dayNumber := by
    have hoffset : d.year - 1900 + (timeYearBase - epochYearBase) = d.year - 1970 := by
      simp only [timeYearBase, epochYearBase]
      omega
    rw [hoffset, daysSinceEpoch_eq (by omega) (by omega) (by omega) (by omega)]
    simp only [Date.dayNumber, daysBeforeYear]
    omega
  have hseconds : d.seconds = 86400 * d.dayNumber + 3600 * d.hour + 60 * d.min + d.sec := rfl
  simp only [elapsed, ofDateTime]
  rw [hcount, sint_eq (n := d.dayNumber * (3600 * 24)) (by omega) (by omega),
    sint_eq (by omega) (by omega)]
  omega

/-! ## To the broken-down time -/

section

variable {stray : ℤ → ℤ} {t : ℤ}

/-- The quotient and the remainder are of a floor division, once the remainder is made positive. -/
theorem floor_eq {t : ℤ} (h : -2 ^ 31 ≤ t) (h' : t < 2 ^ 31) :
    (if t.tmod secondPreDay < 0 then
      (t.tmod secondPreDay + secondPreDay,
        sint (t.tdiv secondPreDay + EPOCH_ADJUSTMENT_DAYS) - 1)
      else (t.tmod secondPreDay, sint (t.tdiv secondPreDay + EPOCH_ADJUSTMENT_DAYS))) =
      (t % 86400, t / 86400 + 719468) := by
  have hsum := Int.mul_tdiv_add_tmod t secondPreDay
  have hlt := Int.tmod_lt_of_pos t (by decide : 0 < secondPreDay)
  have hgt := Int.lt_tmod_of_pos t (by decide : 0 < secondPreDay)
  have hsign : 0 ≤ t → 0 ≤ t.tmod secondPreDay := Int.tmod_nonneg secondPreDay
  have hday : secondPreDay = 86400 := rfl
  have hepoch : EPOCH_ADJUSTMENT_DAYS = 719468 := rfl
  rw [hday] at hsum hlt hgt hsign ⊢
  rw [hepoch, sint_eq (by omega) (by omega)]
  by_cases hneg : t.tmod 86400 < 0
  · rw [if_pos hneg]
    refine Prod.ext ?_ ?_ <;> dsimp only <;> omega
  · rw [if_neg hneg]
    refine Prod.ext ?_ ?_ <;> dsimp only <;> omega

/-- The loop for the year ends at zero at the latest, and at a year that begins by the day. -/
theorem findYear_eq {days : ℤ} (h : 0 ≤ days) (year : ℕ) :
    ∃ found : ℤ, 0 ≤ found ∧ found ≤ year ∧ daysSinceEpoch found 0 ≤ days ∧
      findYear days year year = some found := by
  induction year with
  | zero =>
    have hzero : ¬ daysSinceEpoch 0 0 > days := by
      rw [daysSinceEpoch_eq] <;> omega
    exact ⟨0, Int.le_refl 0, Int.le_refl 0, Int.not_lt.1 hzero, if_neg hzero⟩
  | succ year ih =>
    rw [findYear]
    split_ifs with hlate
    · obtain ⟨found, h₀, hle, hbegun, hfound⟩ := ih
      exact ⟨found, h₀, by omega, hbegun, by rwa [Int.natCast_succ, Int.add_sub_cancel]⟩
    · exact ⟨_, by omega, Int.le_refl _, Int.not_lt.1 hlate, rfl⟩

/-- The fields are computed from the time of day, a day of the week that is one day late, the days
    since 0000-03-01, and a year that is not before 1970 and begins by that day. -/
theorem time2tm_eq (stray : ℤ → ℤ) (h : -2 ^ 31 ≤ t) (h' : t < 2 ^ 31) :
    ∃ year, (0 ≤ year ∧ year ≤ 10000) ∧
    daysSinceEpoch year 0 ≤ t / 86400 + 719468 ∧
    time2tm stray t =
      some (fields stray (t % 86400) ((t / 86400 + 5) % 7) (t / 86400 + 719468) year) := by
  have hdays : 0 ≤ t / 86400 + 719468 := by omega
  obtain ⟨year, hyear, hle, hbegun, hfound⟩ :=
    findYear_eq hdays (toUnsigned (t / 86400 + 719468) / daysPreYear)
  have hle' : year ≤ 10000 := by
    rw [toUnsigned, Int.emod_eq_of_lt (by omega) (by omega), daysPreYear] at hle
    omega
  have hwday : (sint (t / 86400 + 719468 + epochWDayBase)).tmod daysPreWeek =
      (t / 86400 + 5) % 7 := by
    simp only [epochWDayBase, daysPreWeek]
    rw [sint_eq (by omega) (by omega), Int.tmod_eq_emod_of_nonneg (by omega)]
    omega
  refine ⟨year, ⟨hyear, hle'⟩, hbegun, ?_⟩
  simp only [time2tm]
  rw [floor_eq h h']
  dsimp only
  rw [hfound, hwday, if_neg (by omega), Option.map_some]

/-- The time of day is right. -/
theorem fields_time {wday days year : ℤ} {stm : Tm} {indices : List ℤ}
    (h : fields stray (t % 86400) wday days year = (stm, indices)) :
    stm.hour = t % 86400 / 3600 ∧ stm.min = t % 3600 / 60 ∧ stm.sec = t % 60 := by
  have hday₀ := Int.emod_nonneg t (by decide : (86400 : ℤ) ≠ 0)
  have hhour₀ := Int.emod_nonneg (t % 86400) (by decide : (3600 : ℤ) ≠ 0)
  obtain ⟨rfl, -⟩ := Prod.ext_iff.1 h
  simp only [fields, secondPreHour, secondPreMinute]
  rw [Int.tmod_eq_emod_of_nonneg hday₀, Int.tmod_eq_emod_of_nonneg hhour₀,
    Int.tdiv_eq_ediv_of_nonneg hday₀, Int.tdiv_eq_ediv_of_nonneg hhour₀]
  omega

/-- Every second has a date, and the day of the week that is found is the one after it. -/
theorem time2tm_wday (stray : ℤ → ℤ) (h : -2 ^ 31 ≤ t) (h' : t < 2 ^ 31) :
    ∃ d : DateTime, d.seconds = t ∧ ∃ stm indices, time2tm stray t = some (stm, indices) ∧
      stm.wday = (d.weekday + 1) % 7 := by
  obtain ⟨d, rfl⟩ := DateTime.exists_seconds t
  obtain ⟨year, -, -, heq⟩ := time2tm_eq stray h h'
  refine ⟨d, rfl, _, _, heq, ?_⟩
  have hwday : (d.seconds / 86400 + 5) % 7 = (d.weekday + 1) % 7 := by
    rw [d.seconds_ediv, Date.weekday]
    omega
  exact hwday

/-- A second is converted to its date, with the table read only where it has entries. -/
def Converts (stray : ℤ → ℤ) (t : ℤ) : Prop :=
  ∃ d : DateTime, d.seconds = t ∧ ∃ indices, time2tm stray t = some (ofDateTime d, indices) ∧
    ∀ i ∈ indices, 0 ≤ i ∧ i ≤ 11

/-- No second is converted to its date. -/
theorem not_converts (stray : ℤ → ℤ) (h : -2 ^ 31 ≤ t) (h' : t < 2 ^ 31) : ¬ Converts stray t := by
  rintro ⟨d, hd, indices, hconv, -⟩
  obtain ⟨d', hd', stm, indices', heq, hwday⟩ := time2tm_wday stray h h'
  rw [hconv] at heq
  obtain ⟨rfl, -⟩ := Prod.ext_iff.1 (Option.some.inj heq)
  have hlate : d.weekday = (d'.weekday + 1) % 7 := hwday
  have hday : d'.dayNumber = d.dayNumber := by
    rw [← d'.seconds_ediv, ← d.seconds_ediv, hd, hd']
  rw [Date.weekday, Date.weekday, hday] at hlate
  omega

theorem not_converts_zero : ¬ Converts (fun _ => 0) 0 :=
  not_converts (fun _ => 0) (by decide) (by decide)

/-- The first second of the epoch is taken for a Friday of 3939. -/
theorem time2tm_epoch : (∃ stm indices, time2tm (fun _ => 0) 0 = some (stm, indices) ∧
    stm.wday = 5 ∧ stm.year = 2039 ∧ stm.mon = 9 ∧ stm.mday = 20) ∧ ¬ Converts (fun _ => 0) 0 := by
  refine ⟨⟨_, _, rfl, by decide, by decide, by decide, by decide⟩, ?_⟩
  rintro ⟨d, hzero, indices, hconv, -⟩
  have hwday : (5 : ℤ) = d.weekday := congrArg (fun r => Tm.wday r.1) (Option.some.inj hconv)
  have hday := d.seconds_ediv
  rw [Date.weekday] at hwday
  omega

/-! ## There and back -/

/-- The broken-down time is of the second, but for the day of the week, and for daylight saving. -/
def IsBrokenDown (stm : Tm) (d : DateTime) : Prop :=
  stm = { ofDateTime d with wday := stm.wday, isdst := stm.isdst }

/-- Where assertions are compiled in, the one of the year fails from 1970 on. -/
theorem tm2time_of_le {debug : Bool} {stm : Tm} (h : 70 ≤ stm.year) :
    tm2time debug stm = if debug then none else some (elapsed stm) := by
  have hlate : ¬stm.year + timeYearBase < epochYearBase := by
    simp only [timeYearBase, epochYearBase]
    omega
  cases debug <;> simp [tm2time, hlate]

theorem findMonth_mem (stray : ℤ → ℤ) (y days : ℤ) {mon : ℤ} (fuel : ℕ) (h₀ : 0 ≤ mon)
    (h : mon ≤ 11) :
    0 ≤ (findMonth stray y days fuel mon).1 ∧ (findMonth stray y days fuel mon).1 ≤ 11 := by
  induction fuel generalizing mon with
  | zero => exact ⟨h₀, h⟩
  | succ fuel ih =>
    rw [findMonth]
    split_ifs with hnext
    · exact ih (by omega) (by omega)
    · exact ⟨h₀, h⟩

/-- The days before a month are read from the table, and are not many. -/
theorem getDayOfYear_of_mem (stray : ℤ → ℤ) (y : ℤ) {mon : ℤ} (h₀ : 0 ≤ mon) (h : mon ≤ 11) :
    ∃ first, 0 ≤ first ∧ first ≤ 335 ∧
      ∀ day, getDayOfYear stray y mon day = sint (first + day - 1) := by
  have htable : ∀ n ∈ daysArray, 0 ≤ n ∧ n ≤ 334 := by decide
  have hmem : daysArray.getD mon.toNat 0 ∈ daysArray := by
    have hlt : mon.toNat < daysArray.length := show mon.toNat < 12 by omega
    rw [List.getD_eq_getElem _ _ hlt]
    exact List.getElem_mem hlt
  obtain ⟨hfirst₀, hfirst⟩ := htable _ hmem
  refine ⟨daysArray.getD mon.toNat 0 +
    if mon > 1 ∧ isleap (toUnsigned (y + timeYearBase)) = true then 1 else 0, ?_, ?_, fun day => ?_⟩
  · split_ifs <;> omega
  · split_ifs <;> omega
  · rw [getDayOfYear, if_pos (show 0 ≤ mon ∧ mon < 12 by omega)]
    congr 1
    omega

/-- The day of the year goes with the days and the year, whatever the month is. -/
theorem fields_yday (stray : ℤ → ℤ) (rem wday : ℤ) {days year : ℤ}
    (h₀ : 0 ≤ days - daysSinceEpoch year 0) (h : days - daysSinceEpoch year 0 ≤ 2 ^ 30) :
    (fields stray rem wday days year).1.yday = days - daysSinceEpoch year 0 := by
  have hday : sint (days - daysSinceEpoch year 0) = days - daysSinceEpoch year 0 :=
    sint_eq (by omega) (by omega)
  obtain ⟨hmon₀, hmon⟩ := findMonth_mem stray (year + epochYearBase - timeYearBase)
    (days - daysSinceEpoch year 0) 12 (Int.le_refl 0) (by decide)
  obtain ⟨first, hfirst₀, hfirst, hget⟩ := getDayOfYear_of_mem stray
    (year + epochYearBase - timeYearBase) hmon₀ hmon
  simp only [fields, hday, hget]
  rw [sint_eq (n := first + 0 - 1) (by omega) (by omega),
    sint_eq (n := _ - (first + 0 - 1)) (by omega) (by omega), sint_eq (by omega) (by omega)]
  omega

/-- From what `time2tm` makes of a second, `tm2time` computes the one that is as many days later as
    there are from 0000-03-01 to the epoch, of the seconds there are in a word. -/
theorem elapsed_time2tm (stray : ℤ → ℤ) (h : -2 ^ 31 ≤ t) (h' : t < 2 ^ 31) :
    ∃ stm indices, time2tm stray t = some (stm, indices) ∧ 70 ≤ stm.year ∧
      elapsed stm = sint (t + 719468 * 86400) := by
  obtain ⟨year, ⟨hyear₀, hyear⟩, hbegun, heq⟩ := time2tm_eq stray h h'
  have hsince : daysSinceEpoch year 0 = 365 * year + (year + 1) / 4 + 0 :=
    daysSinceEpoch_eq hyear₀ hyear (Int.le_refl 0) (by decide)
  have hyday := fields_yday stray (t % 86400) ((t / 86400 + 5) % 7)
    (show 0 ≤ t / 86400 + 719468 - daysSinceEpoch year 0 by omega) (by omega)
  have hstmYear :
      (fields stray (t % 86400) ((t / 86400 + 5) % 7) (t / 86400 + 719468) year).1.year =
      year + 70 := by
    simp only [fields, timeYearBase, epochYearBase]
    omega
  generalize hfields :
    fields stray (t % 86400) ((t / 86400 + 5) % 7) (t / 86400 + 719468) year = r at *
  obtain ⟨stm, indices⟩ := r
  dsimp only at hstmYear hyday
  obtain ⟨hhour, hmin, hsec⟩ := fields_time hfields
  have hoffset : stm.year + (timeYearBase - epochYearBase) = year := by
    simp only [timeYearBase, epochYearBase]
    omega
  -- The days are counted from the start of the year that has been found.
  have hcount :
      daysSinceEpoch year (t / 86400 + 719468 - daysSinceEpoch year 0) = t / 86400 + 719468 := by
    rw [hsince, daysSinceEpoch, if_pos hyear₀, Int.tdiv_eq_ediv_of_nonneg (by omega), sint_eq] <;>
      omega
  refine ⟨stm, indices, heq, by omega, ?_⟩
  rw [elapsed, hoffset, hyday, hcount, hhour, hmin, hsec]
  simp only [sint]
  omega

/-- `tm2time` returns a second of the epoch from its broken-down time where assertions are not
    compiled in, and never from what `time2tm` makes of it. -/
theorem not_counts (stray : ℤ → ℤ) (debug : Bool) (h₀ : 0 ≤ t) (h : t < 2 ^ 31) :
    (∀ stm d, IsBrokenDown stm d → d.seconds = t → (tm2time debug stm = some t ↔ debug = false)) ∧
      (time2tm stray t).bind (fun r => tm2time debug r.1) ≠ some t := by
  constructor
  · intro stm d hstm hseconds
    have hday := d.seconds_ediv
    have hyear := d.le_year_of_nonneg (by omega)
    have hstmYear : stm.year = d.year - 1900 := congrArg Tm.year hstm
    have helapsed : elapsed stm = t := by
      rw [hstm]
      exact (elapsed_eq (by omega) (by omega)).trans hseconds
    rw [tm2time_of_le (by omega), helapsed]
    cases debug <;> simp
  · obtain ⟨stm, indices, heq, hyear, helapsed⟩ := elapsed_time2tm stray (t := t) (by omega) h
    rw [heq, Option.bind_some, tm2time_of_le hyear, helapsed]
    cases debug with
    | true => exact (Option.some_ne_none t).symm
    | false =>
      rw [if_neg Bool.false_ne_true, Ne, Option.some.injEq, sint]
      omega

/-- Without assertions, the first second of the epoch. -/
theorem not_counts_zero : (time2tm (fun _ => 0) 0).bind (fun r => tm2time false r.1) ≠ some 0 :=
  (not_counts (fun _ => 0) false (Int.le_refl 0) (by decide)).2

/-- The first second of the epoch does not come back, and with assertions it does not pass, although
    it is counted behind them. -/
theorem tm2time_epoch :
    (time2tm (fun _ => 0) 0).bind (fun r => tm2time false r.1) = some 2032493056 ∧
    tm2time true ⟨0, 0, 0, 1, 0, 70, 4, 0, 0⟩ = none ∧
      tm2time false ⟨0, 0, 0, 1, 0, 70, 4, 0, 0⟩ = some 0 ∧
    IsBrokenDown ⟨0, 0, 0, 1, 0, 70, 4, 0, 0⟩
      ⟨⟨1970, 0, 1, by decide, by decide, by decide⟩, 0, 0, 0, by decide, by decide, by decide⟩ :=
  ⟨by decide +kernel, by decide, by decide, rfl⟩

end

end Tm

end DemoOs
