import DemoOs.Types

/-!
# Seconds and nanoseconds

`timespec` (`time.h`) keeps signed seconds and unsigned nanoseconds. `subTimespec2` is meant to
borrow a second when the nanoseconds run out, but tests an unsigned difference for being negative:
it comes out as a large one, and a second is added instead. Differences are exact if there is
nothing to borrow, and only then (`subtracts_iff`); it is the same with the sleeps `clock_nanosleep`
requests up to a given time (`requestsRemaining_iff`).
-/

namespace DemoOs

/-- `timespec`, without the prefix `tv_` of its fields. -/
structure Timespec where
  sec : ℤ
  nsec : ℕ
  deriving DecidableEq

def TIMEVAL_NANOSEC_MAX : ℕ := 1000000000

namespace Timespec

def lessThanByTimespec (tv1 tv2 : Timespec) : Bool :=
  tv1.sec < tv2.sec || (tv1.sec = tv2.sec && tv1.nsec < tv2.nsec)

def subTimespec2 (tv tv2 : Timespec) : Timespec :=
  let tv : Timespec := ⟨sint (tv.sec - tv2.sec), wordSub tv.nsec tv2.nsec⟩
  if tv.nsec ≥ TIMEVAL_NANOSEC_MAX then ⟨sint (tv.sec + 1), wordSub tv.nsec TIMEVAL_NANOSEC_MAX⟩
  -- The nanoseconds are unsigned: this is never so.
  else if tv.nsec < 0 then ⟨sint (tv.sec - 1), word (tv.nsec + TIMEVAL_NANOSEC_MAX)⟩
  else tv

end Timespec

/-! ## Sleeping -/

def CLOCK_REALTIME : ℤ := 0
def CLOCK_MONOTONIC : ℤ := 1
def TIMER_ABSTIME : ℤ := 1

/-- The times of day of the kernel. -/
structure Clocks where
  currentTOD : Timespec
  monoTOD : Timespec

namespace Clocks

/-- What `clock_nanosleep` comes to: an error, or a call of `nanosleep`, which is told where to put
    the time that remains, or is not. -/
inductive Sleep
  | ENOTSUP
  | EINVAL
  | nanosleep (rqtp : Timespec) (rmtp : Bool)
  deriving DecidableEq

/-- The time of the clock, as `clock_nanosleep` reads it. -/
def now (c : Clocks) (clockid : ℤ) : Timespec :=
  if clockid = CLOCK_REALTIME then c.currentTOD else c.monoTOD

/-- `clock_nanosleep`. A null `rqtp` is none; `rmtp` is whether it is not null. -/
def clockNanosleep (c : Clocks) (clockid flags : ℤ) (rqtp : Option Timespec)
    (rmtp : Bool) : Sleep :=
  if clockid ≠ CLOCK_REALTIME ∧ clockid ≠ CLOCK_MONOTONIC then .ENOTSUP
  else
    match rqtp with
    | none => .EINVAL
    | some rqtp =>
      if rqtp.nsec < 0 ∨ rqtp.nsec ≥ TIMEVAL_NANOSEC_MAX then .EINVAL
      else if flags = TIMER_ABSTIME then
        if rqtp.lessThanByTimespec (c.now clockid) then .EINVAL
        else .nanosleep (rqtp.subTimespec2 (c.now clockid)) false
      else .nanosleep rqtp rmtp

end Clocks

namespace Timespec

/-- In nanoseconds. -/
def total (t : Timespec) : ℤ := t.sec * 1000000000 + t.nsec

/-- The nanoseconds are less than a second. -/
def Normalised (t : Timespec) : Prop := t.nsec < TIMEVAL_NANOSEC_MAX

instance instDecidableNormalised (t : Timespec) : Decidable t.Normalised := Nat.decLt _ _

/-- A time that is normalised, and whose seconds are not negative. -/
structure Valid (t : Timespec) : Prop where
  normalised : t.Normalised
  sec_nonneg : 0 ≤ t.sec
  sec_lt : t.sec < 2 ^ 31

/-- The difference is normalised, and it is that of the times. -/
def Subtracts (a b : Timespec) : Prop :=
  (a.subTimespec2 b).Normalised ∧ (a.subTimespec2 b).total = a.total - b.total

/-- Up to the time `rqtp`, the sleep requested is what remains. -/
def RequestsRemaining (c : Clocks) (clockid : ℤ) (rqtp : Timespec) (rmtp : Bool) : Prop :=
  ∃ tsv, c.clockNanosleep clockid TIMER_ABSTIME (some rqtp) rmtp = .nanosleep tsv false ∧
    tsv.Normalised ∧ tsv.total = rqtp.total - (c.now clockid).total

variable {a b : Timespec}

/-- With nothing to borrow, the fields are subtracted. -/
theorem subTimespec2_of_le (ha : a.Valid) (hb : b.Valid) (hle : b.nsec ≤ a.nsec) :
    a.subTimespec2 b = ⟨a.sec - b.sec, a.nsec - b.nsec⟩ := by
  have han := ha.normalised
  have has := ha.sec_lt
  have hbs := hb.sec_nonneg
  have has₀ := ha.sec_nonneg
  have hbs' := hb.sec_lt
  simp only [Normalised, TIMEVAL_NANOSEC_MAX] at han
  have hsec : sint (a.sec - b.sec) = a.sec - b.sec := sint_eq (by omega) (by omega)
  have hnsec : wordSub a.nsec b.nsec = a.nsec - b.nsec := wordSub_eq hle (by omega)
  have hmax : ¬ a.nsec - b.nsec ≥ TIMEVAL_NANOSEC_MAX := by
    rw [TIMEVAL_NANOSEC_MAX]
    omega
  dsimp only [subTimespec2]
  rw [hsec, hnsec, if_neg hmax, if_neg (Nat.not_lt_zero _)]

/-- Where a second should be borrowed, the nanoseconds are far too many. -/
theorem not_normalised_of_lt (ha : a.Valid) (hb : b.Valid) (hlt : a.nsec < b.nsec) :
    ¬ (a.subTimespec2 b).Normalised := by
  have han := ha.normalised
  have hbn := hb.normalised
  simp only [Normalised, TIMEVAL_NANOSEC_MAX] at han hbn
  have hwrap : wordSub a.nsec b.nsec = a.nsec + (2 ^ 32 - b.nsec) := by
    rw [wordSub, word_eq (by omega)]
  have hlarge : a.nsec + (2 ^ 32 - b.nsec) ≥ TIMEVAL_NANOSEC_MAX := by
    rw [TIMEVAL_NANOSEC_MAX]
    omega
  have hsub : wordSub (a.nsec + (2 ^ 32 - b.nsec)) TIMEVAL_NANOSEC_MAX =
      a.nsec + (2 ^ 32 - b.nsec) - TIMEVAL_NANOSEC_MAX := wordSub_eq hlarge (by omega)
  dsimp only [subTimespec2]
  rw [hwrap, if_pos hlarge, Normalised, hsub]
  simp only [TIMEVAL_NANOSEC_MAX]
  omega

/-- A difference is exact if and only if there is no second to borrow. -/
theorem subtracts_iff (ha : a.Valid) (hb : b.Valid) : Subtracts a b ↔ b.nsec ≤ a.nsec := by
  constructor
  · intro h
    by_contra hlt
    exact not_normalised_of_lt ha hb (by omega) h.1
  · intro hle
    have han := ha.normalised
    simp only [Normalised, TIMEVAL_NANOSEC_MAX] at han
    rw [Subtracts, subTimespec2_of_le ha hb hle]
    simp only [Normalised, TIMEVAL_NANOSEC_MAX, total]
    omega

variable {c : Clocks} {clockid : ℤ}

/-- Up to a time that has not passed, the sleep requested is the difference computed. -/
theorem requestsRemaining_iff_subtracts
    (hclock : clockid = CLOCK_REALTIME ∨ clockid = CLOCK_MONOTONIC)
    (ha : a.Valid) (hle : a.lessThanByTimespec (c.now clockid) = false) (rmtp : Bool) :
    RequestsRemaining c clockid a rmtp ↔ Subtracts a (c.now clockid) := by
  have han := ha.normalised
  have hcall : c.clockNanosleep clockid TIMER_ABSTIME (some a) rmtp =
      .nanosleep (a.subTimespec2 (c.now clockid)) false := by
    rw [Clocks.clockNanosleep, if_neg fun h => hclock.elim h.1 h.2]
    rw [if_neg fun h => h.elim (Nat.not_lt_zero _) (Nat.not_le.2 han), if_pos rfl,
      if_neg (ne_true_of_eq_false hle)]
  constructor
  · rintro ⟨tsv, heq, h⟩
    rw [hcall] at heq
    obtain ⟨rfl, -⟩ := Clocks.Sleep.nanosleep.inj heq
    exact h
  · exact fun h => ⟨_, hcall, h⟩

/-- For valid times the second of which is not after the first, the difference is exact if and only
    if there is no second to borrow, and so is the sleep that is requested up to the first when a
    clock shows the second. -/
theorem exact_iff (ha : a.Valid) (hb : b.Valid) (hle : a.lessThanByTimespec b = false) :
    (Subtracts a b ↔ b.nsec ≤ a.nsec) ∧
      ∀ (c : Clocks) (clockid : ℤ) (rmtp : Bool), clockid = CLOCK_REALTIME ∨
        clockid = CLOCK_MONOTONIC →
        c.now clockid = b → (RequestsRemaining c clockid a rmtp ↔ b.nsec ≤ a.nsec) := by
  refine ⟨subtracts_iff ha hb, fun c clockid rmtp hclock hnow => ?_⟩
  subst hnow
  rw [requestsRemaining_iff_subtracts hclock ha hle, subtracts_iff ha hb]

/-- From 1.2 to 3.5 seconds. -/
theorem exact_two : Subtracts ⟨3, 500000000⟩ ⟨1, 200000000⟩ ∧
    RequestsRemaining ⟨⟨1, 200000000⟩, ⟨0, 0⟩⟩ CLOCK_REALTIME ⟨3, 500000000⟩ true :=
  have h := exact_iff (a := ⟨3, 500000000⟩) (b := ⟨1, 200000000⟩) ⟨by decide, by decide, by decide⟩
    ⟨by decide, by decide, by decide⟩ rfl
  ⟨h.1.2 (by decide),
    (h.2 ⟨⟨1, 200000000⟩, ⟨0, 0⟩⟩ CLOCK_REALTIME true (.inl rfl) rfl).2 (by decide)⟩

/-- One nanosecond and a second before two seconds: two seconds and 3294967295 nanoseconds come
    out. -/
theorem not_exact : lessThanByTimespec ⟨2, 0⟩ ⟨1, 1⟩ = false ∧
    subTimespec2 ⟨2, 0⟩ ⟨1, 1⟩ = ⟨2, 3294967295⟩ ∧ ¬ Subtracts ⟨2, 0⟩ ⟨1, 1⟩ ∧
      ¬ RequestsRemaining ⟨⟨1, 1⟩, ⟨0, 0⟩⟩ CLOCK_REALTIME ⟨2, 0⟩ true := by
  have hsub : subTimespec2 ⟨2, 0⟩ ⟨1, 1⟩ = ⟨2, 3294967295⟩ := by decide
  have hcall :
      Clocks.clockNanosleep ⟨⟨1, 1⟩, ⟨0, 0⟩⟩ CLOCK_REALTIME TIMER_ABSTIME (some ⟨2, 0⟩) true =
      .nanosleep ⟨2, 3294967295⟩ false := by decide
  refine ⟨rfl, hsub, fun h => ?_, ?_⟩
  · have hnorm := h.1
    rw [hsub] at hnorm
    exact absurd hnorm (by decide)
  · rintro ⟨tsv, heq, hnorm, -⟩
    rw [hcall] at heq
    obtain ⟨rfl, -⟩ := Clocks.Sleep.nanosleep.inj heq
    exact absurd hnorm (by decide)

end Timespec

end DemoOs
