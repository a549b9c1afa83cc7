import DemoOs.Time.SysTick

/-!
# Time stamps

`CPUBase::timeStamp` (`cpu.h`) reads the upper half of the time base, and then the lower half,
without looking at the upper one again. If the lower half has been carried over in between, it is
read small, and goes with an upper half from before: the time stamp may be before the call. It is
between the time base at the start and at the end of the call if and only if the lower half has not
been carried over (`within_iff`), and then the stamps of successive calls do not go back
(`untorn_iff`).

`handleSysTickInterrupt` does not notice: it narrows the difference to the time stamp to 32 bits,
and a time stamp has the lower half of the time base at the end of its call
(`handleSysTickInterrupt_timeStamp`).
-/

namespace DemoOs

/-- The time base, of 64 bits, at a time that is not. -/
def timeBase (time : ℕ) : ℕ := time % 2 ^ 64

def getTbl (time : ℕ) : ℕ := timeBase time % 2 ^ 32

def getTbu (time : ℕ) : ℕ := timeBase time / 2 ^ 32

/-- `CPUBase::timeStamp`, called at the time `start`, when `advance` passes between the two
    halves. -/
def timeStamp (start advance : ℕ) : ℕ :=
  let u := getTbu start
  let l := getTbl (start + advance)
  u * 2 ^ 32 + l

namespace TimeStamp

/-- The time stamp is not before the start of the call, and not behind its end. -/
def Within (start advance : ℕ) : Prop :=
  timeBase start ≤ timeStamp start advance ∧ timeStamp start advance ≤ timeBase (start + advance)

/-- The lower half is not carried over, and the time base does not overflow. -/
def Carryless (start advance : ℕ) : Prop :=
  start % 2 ^ 32 + advance % 2 ^ 32 < 2 ^ 32 ∧ timeBase start + advance % 2 ^ 64 < 2 ^ 64

theorem within_iff (start advance : ℕ) : Within start advance ↔ Carryless start advance := by
  simp only [Within, Carryless, timeStamp, getTbu, getTbl, timeBase]
  omega

/-! ## Successive calls -/

/-- A call: what passes before it, and between the halves. -/
structure Call where
  idle : ℕ
  advance : ℕ

/-- When the calls start, and what passes in them. -/
def calls (time : ℕ) : List Call → List (ℕ × ℕ)
  | [] => []
  | c :: cs => (time + c.idle, c.advance) :: calls (time + c.idle + c.advance) cs

/-- When the last of them is at its end. -/
def finish (time : ℕ) : List Call → ℕ
  | [] => time
  | c :: cs => finish (time + c.idle + c.advance) cs

def stamps (time : ℕ) (cs : List Call) : List ℕ := (calls time cs).map fun x => timeStamp x.1 x.2

/-- The time stamps are within their calls, and do not go back, as long as the time base itself does
    not. -/
structure Untorn (time : ℕ) (cs : List Call) : Prop where
  within : ∀ x ∈ calls time cs, Within x.1 x.2
  ordered : finish time cs < 2 ^ 64 → (stamps time cs).Pairwise (· ≤ ·)

variable {time : ℕ} {cs : List Call}

theorem le_finish (time : ℕ) (cs : List Call) : time ≤ finish time cs := by
  induction cs generalizing time with
  | nil => exact le_rfl
  | cons c cs ih =>
    have hrest := ih (time + c.idle + c.advance)
    rw [finish]
    omega

/-- No call starts before. -/
theorem le_of_mem_calls {x : ℕ × ℕ} (hx : x ∈ calls time cs) : time ≤ x.1 ∧
    x.1 ≤ finish time cs := by
  induction cs generalizing time with
  | nil => exact absurd hx List.not_mem_nil
  | cons c cs ih =>
    rcases List.mem_cons.1 hx with rfl | hrest
    · have hfinish := le_finish (time + c.idle + c.advance) cs
      rw [finish]
      dsimp only
      omega
    · obtain ⟨hle, hend⟩ := ih hrest
      rw [finish]
      omega

theorem timeBase_eq {time : ℕ} (h : time < 2 ^ 64) : timeBase time = time := Nat.mod_eq_of_lt h

theorem pairwise_of_within (hwithin : ∀ x ∈ calls time cs, Within x.1 x.2)
    (hend : finish time cs < 2 ^ 64) :
    (stamps time cs).Pairwise (· ≤ ·) := by
  induction cs generalizing time with
  | nil => exact .nil
  | cons c cs ih =>
    rw [finish] at hend
    refine .cons (fun y hy => ?_) (ih (fun x hx => hwithin x (List.mem_cons_of_mem _ hx)) hend)
    -- From the end of the first call to the start of the other.
    obtain ⟨x, hx, rfl⟩ := List.mem_map.1 hy
    obtain ⟨hle, hlast⟩ := le_of_mem_calls hx
    calc timeStamp (time + c.idle) c.advance
      _ ≤ timeBase (time + c.idle + c.advance) := (hwithin _ List.mem_cons_self).2
      _ = time + c.idle + c.advance := timeBase_eq (by omega)
      _ ≤ x.1 := hle
      _ = timeBase x.1 := (timeBase_eq (by omega)).symm
      _ ≤ timeStamp x.1 x.2 := (hwithin x (List.mem_cons_of_mem _ hx)).1

theorem untorn_iff (time : ℕ) (cs : List Call) : Untorn time cs ↔
    ∀ x ∈ calls time cs, Carryless x.1 x.2 := by
  constructor
  · exact fun h x hx => (within_iff x.1 x.2).1 (h.within x hx)
  · intro h
    have hwithin : ∀ x ∈ calls time cs, Within x.1 x.2 :=
      fun x hx => (within_iff x.1 x.2).2 (h x hx)
    exact ⟨hwithin, pairwise_of_within hwithin⟩

/-- The lower half is carried over between the two reads: the time stamp is 0. -/
theorem not_untorn : ¬ ∀ time cs, Untorn time cs := by
  intro h
  have hwithin : 0xFFFFFFFF ≤ timeStamp 0xFFFFFFFF 1 :=
    ((h 0xFFFFFFFF [⟨0, 1⟩]).within _ List.mem_cons_self).1
  revert hwithin
  decide

end TimeStamp

/-! ## The tick interrupt -/

namespace SysTick

variable {timerInterval : ℕ} {s : SysTick}

theorem timeStamp_mod (start advance : ℕ) :
    timeStamp start advance % 2 ^ 32 = timeBase (start + advance) % 2 ^ 32 := by
  rw [timeStamp, getTbl, Nat.mul_add_mod', Nat.mod_mod]

/-- A turn only looks at the lower half of the time stamp. -/
theorem turn_congr {curTime curTime' : ℕ} (h : curTime % 2 ^ 32 = curTime' % 2 ^ 32) :
    turn timerInterval curTime s = turn timerInterval curTime' s := by
  have hdelta : ∀ newTime : ℕ, sint (newTime - curTime) = sint (newTime - curTime') := by
    intro newTime
    simp only [sint]
    omega
  rw [turn, turn, hdelta]

theorem turns_congr {timeStamp timeStamp' : ℕ → ℕ}
    (h : ∀ i, timeStamp i % 2 ^ 32 = timeStamp' i % 2 ^ 32)
    (fuel i : ℕ) (s : SysTick) :
    turns timerInterval timeStamp fuel i s = turns timerInterval timeStamp' fuel i s := by
  induction fuel generalizing i s with
  | zero => rfl
  | succ fuel ih =>
    rw [turns, turns, turn_congr (h i)]
    dsimp only
    rw [ih]

/-- With its time stamps, the interrupt does what it would do with the time base at the end of each
    call, though they may be far from it. -/
theorem handleSysTickInterrupt_timeStamp (time advance : ℕ → ℕ) (fuel : ℕ) :
    handleSysTickInterrupt timerInterval (fun i => timeStamp (time i) (advance i)) fuel s =
      handleSysTickInterrupt timerInterval (fun i => timeBase (time i + advance i)) fuel s := by
  rw [handleSysTickInterrupt, turns_congr fun i => timeStamp_mod (time i) (advance i)]
  rfl

end SysTick

end DemoOs
