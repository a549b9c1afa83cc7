import DemoOs.Types
import Mathlib.Tactic.Ring
import Mathlib.Order.Basic
import Mathlib.Data.Nat.Find

/-!
# System ticks

`handleSysTickInterrupt` (`kernel.cpp`) moves the time of the last tick on, by one interval a turn,
until it is not before the time base, and sets the decrementer to what is left. The time base is
read again in every turn.

How far the tick is ahead of the time base (`ahead`) is narrowed to 32 bits, so that an interrupt
that is late by more than `2^31` looks early. The ticks are caught up if and only if no sign is lost
up to the first tick that is not late; for an interval below `2^31` this is that the interrupt is
late by no more than `2^31` (`catchesUp_iff`).
-/

namespace DemoOs

/-- What the tick interrupt changes. The scheduler is left out. -/
structure SysTick where
  lastTime : ℕ
  tickCounter : ℕ
  /-- The decrementer. -/
  dec : ℕ
  deriving DecidableEq

/-- `Powerpc::TimerInterval`: the frequency of the bus, by `SystemTicksPreSecond`. -/
def TimerInterval : ℕ := 100000000 / 100

namespace SysTick

/-- A turn of the loop: the difference, as an `s32`, and the state. -/
def turn (timerInterval curTime : ℕ) (s : SysTick) : ℤ × SysTick :=
  let newTime : ℕ := (s.lastTime + timerInterval) % 2 ^ 64
  (sint (newTime - curTime),
    { s with lastTime := newTime, tickCounter := (s.tickCounter + 1) % 2 ^ 64 })

/-- The turns from the `i`th on, of which there are at most as many as given. Returned are how many
    turns there have been, the last difference, and the state. -/
def turns (timerInterval : ℕ) (timeStamp : ℕ → ℕ) : ℕ → ℕ → SysTick → Option (ℕ × ℤ × SysTick)
  | 0, _, _ => none
  | fuel + 1, i, s =>
    let (delta, s) := turn timerInterval (timeStamp i) s
    if delta < 0 then turns timerInterval timeStamp fuel (i + 1) s else some (i + 1, delta, s)

/-- `handleSysTickInterrupt`, with the values read from the time base in turn. Returned are how many
    have been read, and the state. -/
def handleSysTickInterrupt (timerInterval : ℕ) (timeStamp : ℕ → ℕ) (fuel : ℕ) (s : SysTick) :
    Option (ℕ × SysTick) :=
  (turns timerInterval timeStamp fuel 0 s).map fun (n, delta, s) =>
    (n, { s with dec := (delta % 2 ^ 32).toNat })

section

variable (timerInterval : ℕ) (time : ℕ → ℕ) (s : SysTick)

/-- How far the tick of the `i`th turn is ahead of the time read in it. -/
def ahead (i : ℕ) : ℤ := s.lastTime + (i + 1) * timerInterval - time i

/-- The interrupt returns, having counted the ticks up to the first that is not before the last time
    read, and set the decrementer to what is left until then. The registers are of 64 bits, of a
    time that is not. -/
def CatchesUp : Prop :=
  ∃ fuel n s', handleSysTickInterrupt timerInterval (fun i => time i % 2 ^ 64) fuel s =
    some (n + 1, s') ∧
    s'.lastTime = (s.lastTime + (n + 1) * timerInterval) % 2 ^ 64 ∧
    s'.tickCounter = (s.tickCounter + (n + 1)) % 2 ^ 64 ∧
    time n ≤ s.lastTime + (n + 1) * timerInterval ∧
    (∀ i < n, s.lastTime + (i + 1) * timerInterval < time n) ∧
    time n + s'.dec = s.lastTime + (n + 1) * timerInterval ∧ s'.dec ≤ timerInterval

/-- No difference loses its sign, up to the first that is not negative. -/
def KeepsSign : Prop :=
  ∀ n, (∀ i < n, ahead timerInterval time s i < 0) →
    (sint (ahead timerInterval time s n) < 0 ↔ ahead timerInterval time s n < 0)

/-- The time goes on, by less than an interval a turn. -/
structure Advances : Prop where
  start : s.lastTime ≤ time 0
  mono : ∀ i, time i ≤ time (i + 1)
  lt : ∀ i, time (i + 1) < time i + timerInterval

end

variable {timerInterval n fuel : ℕ} {time : ℕ → ℕ} {s s' : SysTick}

/-! ## Differences -/

/-- Narrowing does not see the upper half of a 64 bit difference. -/
theorem sint_sub_emod (a b : ℕ) : sint ((a % 2 ^ 64 : ℕ) - (b % 2 ^ 64 : ℕ)) = sint (a - b) := by
  have ha := Nat.div_add_mod a (2 ^ 64)
  have hb := Nat.div_add_mod b (2 ^ 64)
  simp only [sint]
  omega

theorem sint_neg_iff {x : ℤ} (h : -2 ^ 31 ≤ x) (h' : x < 2 ^ 31) : sint x < 0 ↔ x < 0 := by
  rw [sint_eq h h']

/-- What is too late by up to `2^31` more looks early. -/
theorem sint_nonneg_of_late {x : ℤ} (h : -2 ^ 32 ≤ x) (h' : x < -2 ^ 31) : ¬ sint x < 0 := by
  rw [sint]
  omega

/-- A difference narrowed to what it is not negative for is small. -/
theorem eq_of_sint_nonneg {x : ℤ} (h : ¬ sint x < 0) (h₀ : 0 ≤ x) (h' : x < 2 ^ 32) : sint x = x ∧
    x < 2 ^ 31 := by
  rw [sint] at h ⊢
  omega

section

variable (h : Advances timerInterval time s)
include h

theorem Advances.ahead_zero_le : ahead timerInterval time s 0 ≤ timerInterval := by
  have := h.start
  rw [ahead]
  omega

/-- A turn gains on the time base, by no more than an interval. -/
theorem Advances.ahead_succ (i : ℕ) :
    ahead timerInterval time s i < ahead timerInterval time s (i + 1) ∧
      ahead timerInterval time s (i + 1) ≤ ahead timerInterval time s i + timerInterval := by
  have hmono := h.mono i
  have hlt := h.lt i
  have hstep : ahead timerInterval time s (i + 1) =
      ahead timerInterval time s i + timerInterval - (time (i + 1) - time i) := by
    simp only [ahead]
    push_cast
    ring
  omega

theorem Advances.ahead_lt {i j : ℕ} (hij : i < j) :
    ahead timerInterval time s i < ahead timerInterval time s j :=
  strictMono_nat_of_lt_succ (fun i => (h.ahead_succ i).1) hij

/-- Some turn is as far ahead as one likes. -/
theorem Advances.exists_le (x : ℤ) : ∃ i, x ≤ ahead timerInterval time s i := by
  have hlow : ∀ i : ℕ, ahead timerInterval time s 0 + i ≤ ahead timerInterval time s i := by
    intro i
    induction i with
    | zero => simp
    | succ i ih =>
      have := (h.ahead_succ i).1
      push_cast
      omega
  refine ⟨(x - ahead timerInterval time s 0).toNat, ?_⟩
  have := hlow (x - ahead timerInterval time s 0).toNat
  omega

/-- The first turn that is as far ahead as `x`, which is at most an interval further. -/
theorem Advances.exists_first (x : ℤ) : ∃ n, x ≤ ahead timerInterval time s n ∧
    (∀ i < n, ahead timerInterval time s i < x) ∧
      (0 < n → ahead timerInterval time s n < x + timerInterval) := by
  classical
  refine ⟨Nat.find (h.exists_le x), Nat.find_spec (h.exists_le x),
    fun i hi => not_le.1 (Nat.find_min (h.exists_le x) hi), fun hpos => ?_⟩
  obtain ⟨m, hm⟩ := Nat.exists_eq_add_one_of_ne_zero hpos.ne'
  have hlast := Nat.find_min (h.exists_le x) (m := m) (by omega)
  have := (h.ahead_succ m).2
  rw [hm]
  omega

end

/-! ## The loop -/

/-- The registers after `n` turns. -/
structure After (timerInterval n : ℕ) (s s' : SysTick) : Prop where
  lastTime : s'.lastTime % 2 ^ 64 = (s.lastTime + n * timerInterval) % 2 ^ 64
  tickCounter : s'.tickCounter % 2 ^ 64 = (s.tickCounter + n) % 2 ^ 64

theorem After.turn (time : ℕ → ℕ) (h : After timerInterval n s s') :
    (turn timerInterval (time n % 2 ^ 64) s').1 = sint (ahead timerInterval time s n) ∧
      After timerInterval (n + 1) s (turn timerInterval (time n % 2 ^ 64) s').2 ∧
        (turn timerInterval (time n % 2 ^ 64) s').2.lastTime < 2 ^ 64 ∧
          (turn timerInterval (time n % 2 ^ 64) s').2.tickCounter < 2 ^ 64 := by
  have hnew :
      (s'.lastTime + timerInterval) % 2 ^ 64 = (s.lastTime + (n + 1) * timerInterval) % 2 ^ 64 := by
    rw [Nat.add_mod, h.lastTime, ← Nat.add_mod, Nat.add_assoc, Nat.add_mul, Nat.one_mul]
  have hcount : (s'.tickCounter + 1) % 2 ^ 64 = (s.tickCounter + (n + 1)) % 2 ^ 64 := by
    rw [Nat.add_mod, h.tickCounter, ← Nat.add_mod, Nat.add_assoc]
  have hlt : ∀ a : ℕ, a % 2 ^ 64 < 2 ^ 64 := fun a => Nat.mod_lt a (by decide)
  refine ⟨?_, ⟨?_, ?_⟩, hlt _, hlt _⟩
  · have hnarrow := sint_sub_emod (s.lastTime + (n + 1) * timerInterval) (time n)
    rw [SysTick.turn, ahead]
    dsimp only
    rw [hnew, hnarrow]
    push_cast
    rfl
  · exact (Nat.mod_mod ..).trans hnew
  · exact (Nat.mod_mod ..).trans hcount

/-- The turns end with the first difference that does not look negative. -/
theorem turns_eq (fuel : ℕ) {i : ℕ} (h : After timerInterval i s s') (hi : i ≤ n)
    (hneg : ∀ j, i ≤ j → j < n → sint (ahead timerInterval time s j) < 0)
    (hlast : ¬ sint (ahead timerInterval time s n) < 0) (hfuel : n < i + fuel) :
    ∃ s'', turns timerInterval (fun i => time i % 2 ^ 64) fuel i s' =
        some (n + 1, sint (ahead timerInterval time s n), s'') ∧
      s''.lastTime = (s.lastTime + (n + 1) * timerInterval) % 2 ^ 64 ∧
        s''.tickCounter = (s.tickCounter + (n + 1)) % 2 ^ 64 := by
  induction fuel generalizing i s' with
  | zero => omega
  | succ fuel ih =>
    obtain ⟨hdelta, hafter, hlt, hlt'⟩ := h.turn time
    rw [turns]
    rcases hi.eq_or_lt with rfl | hin
    · refine ⟨_, ?_, (Nat.mod_eq_of_lt hlt).symm.trans hafter.lastTime,
        (Nat.mod_eq_of_lt hlt').symm.trans hafter.tickCounter⟩
      dsimp only
      rw [hdelta, if_neg hlast]
    · dsimp only
      rw [hdelta, if_pos (hneg i le_rfl hin)]
      exact ih hafter hin (fun j hj => hneg j (by omega)) (by omega)

/-- The loop only ends so. -/
theorem of_turns_eq_some {i : ℕ} {delta : ℤ} {s'' : SysTick} (h : After timerInterval i s s')
    (hturns : turns timerInterval (fun i => time i % 2 ^ 64) fuel i s' = some (n + 1, delta, s'')) :
    i ≤ n ∧ (∀ j, i ≤ j → j < n → sint (ahead timerInterval time s j) < 0) ∧
      ¬ sint (ahead timerInterval time s n) < 0 ∧ delta = sint (ahead timerInterval time s n) := by
  induction fuel generalizing i s' with
  | zero => cases hturns
  | succ fuel ih =>
    obtain ⟨hdelta, hafter, -⟩ := h.turn time
    rw [turns] at hturns
    dsimp only at hturns
    rw [hdelta] at hturns
    split_ifs at hturns with hneg
    · obtain ⟨hle, hall, hlast⟩ := ih hafter hturns
      refine ⟨by omega, fun j hij hjn => ?_, hlast⟩
      rcases hij.eq_or_lt with rfl | hij
      · exact hneg
      · exact hall j hij hjn
    · simp only [Option.some.injEq, Prod.mk.injEq, Nat.add_right_cancel_iff] at hturns
      obtain ⟨rfl, rfl, -⟩ := hturns
      exact ⟨le_rfl, fun j hij hji => absurd hji (Nat.not_lt.2 hij), hneg, rfl⟩

theorem After.refl : After timerInterval 0 s s := by
  constructor <;> simp

/-! ## Catching up -/

/-- If no sign is lost, the loop ends with the first tick that is not late. -/
theorem catchesUp_of_keepsSign (h : Advances timerInterval time s) (hint : timerInterval < 2 ^ 32)
    (hsign : KeepsSign timerInterval time s) : CatchesUp timerInterval time s := by
  obtain ⟨n, hn, hlate, hnext⟩ := h.exists_first 0
  -- The turn before was late, so this one is ahead by an interval at most.
  have hle : ahead timerInterval time s n ≤ timerInterval := by
    rcases Nat.eq_zero_or_pos n with rfl | hpos
    · exact h.ahead_zero_le
    · have := hnext hpos
      omega
  have hlast : ¬ sint (ahead timerInterval time s n) < 0 := by
    rw [hsign n hlate]
    omega
  obtain ⟨heq, -⟩ := eq_of_sint_nonneg hlast hn (by omega)
  obtain ⟨s', hturns, htime, hcount⟩ := turns_eq (n + 1) After.refl (Nat.zero_le n)
    (fun j _ hj => (hsign j fun i hi => hlate i (hi.trans hj)).2 (hlate j hj)) hlast (by omega)
  have hdec : (sint (ahead timerInterval time s n) % 2 ^ 32).toNat =
      (ahead timerInterval time s n).toNat := by
    rw [heq, Int.emod_eq_of_lt hn (by omega)]
  refine ⟨n + 1, n, { s' with dec := (sint (ahead timerInterval time s n) % 2 ^ 32).toNat },
    by rw [handleSysTickInterrupt, hturns]; rfl, htime, hcount, ?_, fun i hi => ?_, ?_, ?_⟩
  · rw [ahead] at hn
    exact_mod_cast Int.sub_nonneg.1 hn
  · -- The time read last is not before the one read in that turn.
    have htime : time i ≤ time n := monotone_nat_of_le_succ h.mono hi.le
    have hi := hlate i hi
    rw [ahead] at hi
    have : (s.lastTime : ℤ) + (i + 1) * timerInterval < time n := by omega
    exact_mod_cast this
  · dsimp only
    rw [hdec]
    -- The decrementer runs out at the next multiple of the interval.
    have hsub :
        (time n : ℤ) + ahead timerInterval time s n = s.lastTime + (n + 1) * timerInterval := by
      rw [ahead]
      ring
    have : ((time n + (ahead timerInterval time s n).toNat : ℕ) : ℤ) =
        (s.lastTime + (n + 1) * timerInterval : ℕ) := by
      push_cast
      rw [← hsub, Int.toNat_of_nonneg hn]
    exact_mod_cast this
  · dsimp only
    rw [hdec]
    omega

/-- A loop that ends with the first tick that is not late has lost no sign. -/
theorem keepsSign_of_catchesUp (h : Advances timerInterval time s)
    (hcatch : CatchesUp timerInterval time s) :
    KeepsSign timerInterval time s := by
  obtain ⟨fuel, n, s', hcall, -, -, hnext, -, hdec, -⟩ := hcatch
  obtain ⟨⟨n', delta, s''⟩, hturns, heq⟩ := Option.map_eq_some_iff.1 hcall
  obtain ⟨rfl, rfl⟩ : n' = n + 1 ∧ _ = s' := Prod.ext_iff.1 heq
  obtain ⟨-, hneg, hlast, rfl⟩ := of_turns_eq_some After.refl hturns
  -- What is put into the decrementer is not reduced, since the next tick is at its time.
  have hval :
      ahead timerInterval time s n =
      ((sint (ahead timerInterval time s n) % 2 ^ 32).toNat : ℕ) := by
    have : ((time n : ℕ) : ℤ) + ((sint (ahead timerInterval time s n) % 2 ^ 32).toNat : ℕ) =
        s.lastTime + (n + 1) * timerInterval := by exact_mod_cast hdec
    rw [ahead] at this ⊢
    omega
  have hsmall : 0 ≤ ahead timerInterval time s n ∧ ahead timerInterval time s n < 2 ^ 31 := by
    have hlt :=
      Int.emod_lt_of_pos (sint (ahead timerInterval time s n)) (by decide : (0 : ℤ) < 2 ^ 32)
    have h₀ : 0 ≤ ahead timerInterval time s n := by omega
    exact ⟨h₀, (eq_of_sint_nonneg hlast h₀ (by omega)).2⟩
  intro m hm
  rcases Nat.lt_trichotomy m n with hmn | rfl | hnm
  · -- This difference is smaller than the last one, so that it looks like what it is.
    have hlt := h.ahead_lt hmn
    have hm := hneg m (Nat.zero_le m) hmn
    refine iff_of_true hm ?_
    by_contra h₀
    rw [sint_eq (by omega) (by omega)] at hm
    exact h₀ hm
  · exact iff_of_false hlast (by omega)
  · exact absurd (hm n hnm) (by omega)

/-- With an interval that fits, it is the first difference that matters. -/
theorem keepsSign_iff (h : Advances timerInterval time s) (hint : timerInterval < 2 ^ 31) :
    KeepsSign timerInterval time s ↔ -2 ^ 31 ≤ ahead timerInterval time s 0 := by
  constructor
  · intro hsign
    by_contra hlow
    -- The turns cannot step over the differences that look early.
    obtain ⟨n, hn, hlate, hnext⟩ := h.exists_first (-2 ^ 32)
    have hhigh : ahead timerInterval time s n < -2 ^ 31 := by
      rcases Nat.eq_zero_or_pos n with rfl | hpos
      · omega
      · have := hnext hpos
        omega
    have hneg : ∀ i < n, ahead timerInterval time s i < 0 := fun i hi => by
      have := hlate i hi
      omega
    exact sint_nonneg_of_late hn hhigh ((hsign n hneg).2 (by omega))
  · intro hlow n hneg
    have hle : ahead timerInterval time s 0 ≤ ahead timerInterval time s n := by
      rcases Nat.eq_zero_or_pos n with rfl | hpos
      · exact le_rfl
      · exact (h.ahead_lt hpos).le
    refine sint_neg_iff (by omega) ?_
    cases n with
    | zero =>
      have := h.ahead_zero_le
      omega
    | succ n =>
      have := (h.ahead_succ n).2
      have := hneg n (Nat.lt_succ_self n)
      omega

/-- The ticks are caught up if and only if no difference loses its sign up to the first that is not
    negative. With an interval below `2^31`, this is that the first time read is no more than `2^31`
    behind the first tick. -/
theorem catchesUp_iff (h : Advances timerInterval time s) (hint : timerInterval < 2 ^ 32) :
    (CatchesUp timerInterval time s ↔ KeepsSign timerInterval time s) ∧
      (timerInterval < 2 ^ 31 →
        (CatchesUp timerInterval time s ↔ time 0 ≤ s.lastTime + timerInterval + 2 ^ 31)) := by
  have hiff : CatchesUp timerInterval time s ↔ KeepsSign timerInterval time s :=
    ⟨keepsSign_of_catchesUp h, catchesUp_of_keepsSign h hint⟩
  refine ⟨hiff, fun hint => ?_⟩
  rw [hiff, keepsSign_iff h hint, ahead]
  omega

/-- An interrupt that is late by two intervals and a half, while the time base stands still. -/
theorem catchesUp_late : CatchesUp TimerInterval (fun _ => 3500000) ⟨0, 7, 0⟩ := by
  have h : Advances TimerInterval (fun _ => 3500000) ⟨0, 7, 0⟩ :=
    ⟨by decide, fun _ => le_rfl, fun _ => by decide⟩
  exact ((catchesUp_iff h (by decide)).2 (by decide)).2 (by decide)

/-- Late by more than `2^31`, the interrupt counts one tick, and the decrementer is set to its
    largest value. -/
theorem not_catchesUp : ∃ time : ℕ → ℕ, Advances TimerInterval time ⟨0, 7, 0⟩ ∧
    handleSysTickInterrupt TimerInterval (fun i => time i % 2 ^ 64) 1 ⟨0, 7, 0⟩ =
      some (1, ⟨1000000, 8, 2147483647⟩) ∧ ¬ CatchesUp TimerInterval time ⟨0, 7, 0⟩ := by
  have h : Advances TimerInterval (fun _ => 2148483649) ⟨0, 7, 0⟩ :=
    ⟨by decide, fun _ => le_rfl, fun _ => by decide⟩
  refine ⟨fun _ => 2148483649, h, by decide, fun hcatch => ?_⟩
  have hlow := (keepsSign_iff h (by decide)).1 (keepsSign_of_catchesUp h hcatch)
  exact absurd hlow (by decide)

end SysTick

end DemoOs
