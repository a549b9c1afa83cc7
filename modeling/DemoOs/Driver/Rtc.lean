import DemoOs.Time.TmTime

/-!
# The real-time clock

The driver of the MC146818 (`mc146818.cpp`), over a register file that returns the bytes last
written, as the clock does when it is halted.

What `read` makes of the registers is right, if they are as the chip has them, with the months from
one (`read_of_encodes`). But `write` stores the months as `tm_t` has them, from zero, so that no
date written is read back (`not_roundTrips`): it is a month early, and what is written for 2060 and
later is read as sixty years before (`read_write`).
-/

namespace DemoOs

open Calendar

namespace MC146818

/-- The registers, by number. -/
abbrev Registers := ℕ → UInt8

def bcd2bin (val : ℕ) : ℕ := (val &&& 0x0f) + ((val &&& 0xff) >>> 4) * 10

def bin2bcd (val : ℕ) : ℕ := word ((val / 10) <<< 4) ||| val % 10

def r8 (regs : Registers) (reg : ℕ) : ℕ := (regs reg).toNat

def w8 (regs : Registers) (reg val : ℕ) : Registers :=
  Function.update regs reg (UInt8.ofNat val)

def isUpdating (regs : Registers) : Bool := r8 regs 0x0A &&& 0x80 != 0

/-- The loop in front waits for the end of an update, which does not come in a register file. -/
def read (stray : ℤ → ℤ) (regs : Registers) : Option Tm :=
  if isUpdating regs then none
  else
    let s := r8 regs 0
    let m := r8 regs 2
    let h := r8 regs 4
    let dow := r8 regs 6
    let dom := r8 regs 7
    let mon := r8 regs 8
    let y := r8 regs 9
    let year : ℤ := bcd2bin y
    let year := if year < 70 then year + 100 else year
    let mday : ℤ := bcd2bin (dom &&& 0x3f)
    let mon : ℤ := bcd2bin (mon &&& 0x1f) - 1
    some {
      sec := bcd2bin (s &&& 0x7f)
      min := bcd2bin (m &&& 0x7f)
      hour := bcd2bin (h &&& 0x3f)
      mday
      mon
      year
      wday := bcd2bin (dow &&& 0x07)
      yday := Tm.getDayOfYear stray year mon mday
      isdst := 0 }

def write (regs : Registers) (tm : Tm) : Registers :=
  let regs := w8 regs 0x0B 0x82
  let regs := w8 regs 9 (bin2bcd (Tm.toUnsigned tm.year))
  let regs := w8 regs 8 (bin2bcd (Tm.toUnsigned tm.mon))
  let regs := w8 regs 7 (bin2bcd (Tm.toUnsigned tm.mday))
  let regs := w8 regs 6 (bin2bcd (Tm.toUnsigned tm.wday))
  let regs := w8 regs 4 (bin2bcd (Tm.toUnsigned tm.hour))
  let regs := w8 regs 2 (bin2bcd (Tm.toUnsigned tm.min))
  let regs := w8 regs 0 (bin2bcd (Tm.toUnsigned tm.sec))
  w8 regs 0x0B 0x02

/-! ## Digits -/

/-- The byte a register gets for a number. -/
def digits (n : ℕ) : UInt8 := UInt8.ofNat (bin2bcd n)

/-- A number is read back through a mask that leaves its digits. -/
theorem bcd2bin_digits :
    (∀ n < 160, bcd2bin (digits n).toNat = n) ∧
    (∀ n < 80, bcd2bin ((digits n).toNat &&& 0x7f) = n) ∧
    (∀ n < 40, bcd2bin ((digits n).toNat &&& 0x3f) = n) ∧
    (∀ n < 20, bcd2bin ((digits n).toNat &&& 0x1f) = n) ∧
    (∀ n < 8, bcd2bin ((digits n).toNat &&& 0x07) = n) := by
  decide +kernel

/-- The byte has no room for more than fifteen tens. -/
theorem digits_year : ∀ n < 170, digits n = digits (n % 160) := by
  decide +kernel

/-! ## Reading -/

/-- The registers of a clock that is not updating, with two digits in each. -/
structure Shows (regs : Registers) (s m h dow dom mon y : ℕ) : Prop where
  running : isUpdating regs = false
  sec : regs 0 = digits s
  min : regs 2 = digits m
  hour : regs 4 = digits h
  wday : regs 6 = digits dow
  mday : regs 7 = digits dom
  mon : regs 8 = digits mon
  year : regs 9 = digits y

variable {stray : ℤ → ℤ} {regs : Registers} {d : DateTime} {stm : Tm}

theorem Shows.read {s m h dow dom mon y : ℕ} (hregs : Shows regs s m h dow dom mon y) (hs : s < 60)
    (hm : m < 60) (hh : h < 24) (hdow : dow < 7) (hdom : dom < 32) (hmon : mon < 13)
    (hy : y < 160) :
    read stray regs = some {
      sec := s
      min := m
      hour := h
      mday := dom
      mon := mon - 1
      year := if (y : ℤ) < 70 then y + 100 else y
      wday := dow
      yday := Tm.getDayOfYear stray (if (y : ℤ) < 70 then y + 100 else y) (mon - 1) dom
      isdst := 0 } := by
  obtain ⟨hyear, h7f, h3f, h1f, h07⟩ := bcd2bin_digits
  simp only [MC146818.read, hregs.running, r8, hregs.sec, hregs.min, hregs.hour, hregs.wday,
    hregs.mday, hregs.mon, hregs.year, hyear y hy, h7f s (by omega), h7f m (by omega),
    h3f h (by omega), h3f dom (by omega), h1f mon (by omega), h07 dow (by omega)]
  rfl

/-- The registers are of the second, as the chip has them: the months count from one, and the years
    of a century. -/
def Encodes (regs : Registers) (d : DateTime) : Prop :=
  Shows regs d.sec.toNat d.min.toNat d.hour.toNat d.weekday.toNat d.day.toNat (d.month + 1)
    (d.year % 100).toNat

theorem day_lt (d : DateTime) : d.day < 32 := by
  have := d.day_le
  unfold daysInMonth at this
  split_ifs at this <;> omega

/-- Dates of the years around the pivot are read as they are. -/
theorem read_of_encodes (h : Encodes regs d) (h₀ : 1970 ≤ d.year) (h₁ : d.year ≤ 2069) :
    read stray regs = some (Tm.ofDateTime d) := by
  have := d.one_le_day
  have := day_lt d
  have hmonth := d.month_lt
  have hwday : 0 ≤ d.weekday ∧ d.weekday < 7 := by
    unfold Date.weekday
    omega
  have hsec : (d.sec.toNat : ℤ) = d.sec ∧ d.sec.toNat < 60 := by have := d.sec_mem; omega
  have hmin : (d.min.toNat : ℤ) = d.min ∧ d.min.toNat < 60 := by have := d.min_mem; omega
  have hhour : (d.hour.toNat : ℤ) = d.hour ∧ d.hour.toNat < 24 := by have := d.hour_mem; omega
  have hdow : (d.weekday.toNat : ℤ) = d.weekday := by omega
  have hday : (d.day.toNat : ℤ) = d.day := by omega
  have hmon : ((d.month + 1 : ℕ) : ℤ) - 1 = d.month := by omega
  have hyear : (if (((d.year % 100).toNat : ℕ) : ℤ) < 70 then ((d.year % 100).toNat : ℤ) + 100
      else (d.year % 100).toNat) = d.year - 1900 := by
    split_ifs <;> omega
  have hyday : Tm.getDayOfYear stray (d.year - 1900) d.month d.day = d.dayOfYear :=
    Tm.getDayOfYear_eq stray (by omega) (by omega) hmonth (by omega) (by omega)
  rw [h.read hsec.2 hmin.2 hhour.2 (by omega) (by omega) (by omega) (by omega), hsec.1, hmin.1,
    hhour.1, hday, hmon, hyear, hdow, hyday]
  rfl

/-! ## Reading what has been written -/

/-- The broken-down time is of the second, whatever is in the fields that `write` does not read, and
    with some day of the week. -/
def Sets (stm : Tm) (d : DateTime) : Prop :=
  stm = { Tm.ofDateTime d with wday := stm.wday, yday := stm.yday, isdst := stm.isdst } ∧
    0 ≤ stm.wday ∧ stm.wday < 7

theorem toUnsigned_eq {n : ℤ} (h₀ : 0 ≤ n) (h : n < 1000) : Tm.toUnsigned n = n.toNat := by
  rw [Tm.toUnsigned, Int.emod_eq_of_lt h₀ (by omega)]

/-- What `write` leaves in the registers, with the fields taken as unsigned. -/
theorem write_shows (hrun : isUpdating regs = false) (stm : Tm) :
    Shows (write regs stm) (Tm.toUnsigned stm.sec) (Tm.toUnsigned stm.min) (Tm.toUnsigned stm.hour)
      (Tm.toUnsigned stm.wday) (Tm.toUnsigned stm.mday) (Tm.toUnsigned stm.mon)
      (Tm.toUnsigned stm.year) :=
  ⟨hrun, rfl, rfl, rfl, rfl, rfl, rfl, rfl⟩

/-- The registers after a date has been written: the months count from zero, and the years from
    1900, or from 2060 on. -/
theorem shows_write (hstm : Sets stm d) (h₀ : 1970 ≤ d.year) (h₁ : d.year ≤ 2069)
    (hrun : isUpdating regs = false) :
    Shows (write regs stm) d.sec.toNat d.min.toNat d.hour.toNat stm.wday.toNat d.day.toNat d.month
      ((d.year - 1900) % 160).toNat := by
  have := d.sec_mem
  have := d.min_mem
  have := d.hour_mem
  have := d.one_le_day
  have := day_lt d
  have hmonth := d.month_lt
  obtain ⟨hstm, hwday₀, hwday⟩ := hstm
  have hsec : stm.sec = d.sec := congrArg Tm.sec hstm
  have hmin : stm.min = d.min := congrArg Tm.min hstm
  have hhour : stm.hour = d.hour := congrArg Tm.hour hstm
  have hmday : stm.mday = d.day := congrArg Tm.mday hstm
  have hmon : stm.mon = d.month := congrArg Tm.mon hstm
  have hyear : stm.year = d.year - 1900 := congrArg Tm.year hstm
  -- Two digits are kept, the first of which may be greater than nine.
  have hdigits : digits (d.year - 1900).toNat = digits ((d.year - 1900) % 160).toNat := by
    rw [digits_year _ (by omega)]
    congr 1
    omega
  have hregs := write_shows hrun stm
  rw [toUnsigned_eq hwday₀ (by omega), hsec, hmin, hhour, hmday, hmon, hyear,
    toUnsigned_eq (n := d.sec) (by omega) (by omega),
      toUnsigned_eq (n := d.min) (by omega) (by omega),
    toUnsigned_eq (n := d.hour) (by omega) (by omega),
      toUnsigned_eq (n := d.day) (by omega) (by omega),
    toUnsigned_eq (n := d.month) (by omega) (by omega),
    toUnsigned_eq (n := d.year - 1900) (by omega) (by omega), Int.toNat_natCast] at hregs
  exact { hregs with year := hregs.year.trans hdigits }

/-- A date written comes back a month early, and from 2060 on sixty years. -/
theorem read_write (hstm : Sets stm d) (h₀ : 1970 ≤ d.year) (h₁ : d.year ≤ 2069)
    (hrun : isUpdating regs = false) :
    ∃ tt, read stray (write regs stm) = some tt ∧ tt.sec = d.sec ∧ tt.min = d.min ∧
      tt.hour = d.hour ∧ tt.mday = d.day ∧ tt.mon = d.month - 1 ∧
        tt.year = (if d.year ≤ 2059 then d.year else d.year - 60) - 1900 ∧ tt.wday = stm.wday := by
  have := d.sec_mem
  have := d.min_mem
  have := d.hour_mem
  have := d.one_le_day
  have := day_lt d
  have hmonth := d.month_lt
  have hwday := hstm.2
  refine ⟨_, (shows_write hstm h₀ h₁ hrun).read (by omega) (by omega) (by omega) (by omega)
    (by omega) (by omega) (by omega), ?_⟩
  dsimp only
  split_ifs <;> omega

/-- The date is read back as it has been written, with the day of the year. -/
def RoundTrips (stray : ℤ → ℤ) (regs : Registers) (stm : Tm) (d : DateTime) : Prop :=
  ∃ tt, read stray (write regs stm) = some tt ∧ tt.sec = stm.sec ∧ tt.min = stm.min ∧
    tt.hour = stm.hour ∧ tt.mday = stm.mday ∧ tt.mon = stm.mon ∧ tt.year = stm.year ∧
      tt.wday = stm.wday ∧ tt.yday = d.dayOfYear

/-- No date is read back as it has been written. -/
theorem not_roundTrips (stray : ℤ → ℤ) (regs : Registers) (hstm : Sets stm d) (h₀ : 1970 ≤ d.year)
    (h₁ : d.year ≤ 2069) : ¬ RoundTrips stray regs stm d := by
  rintro ⟨tt, hread, -, -, -, -, hmon, -⟩
  have hstmMon : stm.mon = d.month := congrArg Tm.mon hstm.1
  by_cases hrun : isUpdating regs = true
  · -- The clock is not halted, and nothing is read.
    have hwait : read stray (write regs stm) = none := if_pos hrun
    rw [hwait] at hread
    cases hread
  · obtain ⟨tt', hread', -, -, -, -, hearly, -⟩ :=
      read_write hstm h₀ h₁ (Bool.eq_false_iff.2 hrun)
    rw [hread] at hread'
    obtain rfl := Option.some.inj hread'
    omega

/-- The last day of a February, written to a clock whose registers are all zero. -/
theorem not_roundTrips_february :
    ¬ RoundTrips (fun _ => 0) (fun _ => 0) ⟨0, 0, 12, 29, 1, 124, 4, 59, 0⟩
      ⟨⟨2024, 1, 29, by decide, by decide, by decide⟩, 12, 0, 0, by decide, by decide, by decide⟩ :=
  not_roundTrips _ _ ⟨rfl, by decide, by decide⟩ (by decide) (by decide)

/-- The first second of 2024, a Monday, is read as of the month before January. -/
theorem write_january : ∃ d stm, Sets stm d ∧ d.year = 2024 ∧ d.month = 0 ∧
    ((read (fun _ => 0) (write (fun _ => 0) stm)).map Tm.mon) = some (-1) ∧
      ¬ RoundTrips (fun _ => 0) (fun _ => 0) stm d := by
  refine ⟨⟨⟨2024, 0, 1, by decide, by decide, by decide⟩, 0, 0, 0, by decide, by decide, by decide⟩,
    ⟨0, 0, 0, 1, 0, 124, 1, 0, 0⟩, ⟨rfl, by decide, by decide⟩, rfl, rfl, by decide +kernel, ?_⟩
  rintro ⟨tt, hread, -, -, -, -, hmon, -⟩
  have hearly : (some tt).map Tm.mon = some (-1) := hread ▸ by decide +kernel
  rw [Option.map_some, hmon] at hearly
  exact absurd hearly (by decide)

end MC146818

end DemoOs
