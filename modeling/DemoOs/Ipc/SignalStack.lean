import DemoOs.Types

/-!
# The alternate signal stack

`sigaltstack` (`signalstack.cpp`) reads and replaces the alternate stack of the current thread. What
it asks of a new one is that it is aligned, large enough, and that the thread is not executing on
the current one.

`isAlligned` masks where it should test for zero: aligned is what is less than the alignment. So a
stack that is where it should be is refused, and one at the addresses 1 to 3 accepted; and where the
thread is executing on its stack, the kernel is left though it has not been entered
(`sigaltstack_iff`).
-/

namespace DemoOs

/-- The values of the error codes (`errno.h`). -/
def ErrNo.val : ErrNo → ℤ
  | ENONE => 0
  | EPERM => 1
  | ENOENT => 2
  | ENOMEM => 12
  | EFAULT => 14
  | ENOTEMPTY => 15
  | EBUSY => 16
  | EEXIST => 17
  | ENODEV => 19
  | ENOTDIR => 20
  | EISDIR => 21
  | EINVAL => 22
  | ENAMETOOLONG => 26

/-- `isAlligned` (`types.h`). -/
def isAlligned (arg align : ℕ) : Bool := arg &&& wordNot (wordSub align 1) = 0

theorem isAlligned_two_pow {a k : ℕ} (ha : a < 2 ^ 32) (hk : k < 32) :
    isAlligned a (2 ^ k) ↔ a < 2 ^ k := by
  have hpos : 0 < 2 ^ k := Nat.two_pow_pos k
  rw [isAlligned, wordSub_two_pow_one hk, and_wordNot_two_pow ha hk, decide_eq_true_iff,
    Nat.mul_eq_zero, or_iff_left hpos.ne', Nat.div_eq_zero_iff, or_iff_right hpos.ne']

def SS_ONSTACK : BitVec 32 := 1
def MINSIGSTKSZ : BitVec 32 := 4096

/-- `signalstack_t`. -/
structure SignalStack where
  ss_sp : BitVec 32
  ss_flags : BitVec 32
  ss_size : BitVec 32
  deriving DecidableEq

/-- What `sigaltstack` and `exitKernel` read and write. Of the threads, their scheduling included,
    nothing is assumed. -/
structure SignalState (τ : Type*) where
  /-- `_stack` in the signal context of the current thread. -/
  stack : SignalStack
  /-- `_context` of the current thread. -/
  context : BitVec 32
  /-- The descriptors of the caller. -/
  mem : ℕ → SignalStack
  /-- What `__setError` sets. -/
  error : ErrNo
  kernelCounter : BitVec 32
  /-- `_key` of `_kernelLock`. -/
  kernelLock : BitVec 32
  kernelOwer : BitVec 32
  kernelEnterFunc : BitVec 32
  interruptNestingCounter : BitVec 32
  threads : τ

namespace SignalState

variable {τ : Type*} (scheduleInKernel curthreadUnsafe : τ → τ)

/-- `CommonKernel::exitKernel`. -/
def exitKernel (s : SignalState τ) : SignalState τ :=
  let s := { s with kernelCounter := s.kernelCounter - 1 }
  let s := if s.kernelCounter = 0 then
      { s with kernelOwer := 0, kernelEnterFunc := 0, threads := scheduleInKernel s.threads }
    else s
  -- `unlockKernelAndRestoreInterrupt`.
  let s := { s with kernelLock := 0 }
  if s.interruptNestingCounter = 0 then { s with threads := curthreadUnsafe s.threads } else s

/-- The context of the thread is within the alternate stack, `ss_sp + ss_size` being a word. -/
def OnStack (s : SignalState τ) : Prop :=
  s.stack.ss_flags &&& SS_ONSTACK ≠ 0 ∧
    s.stack.ss_sp ≤ s.context ∧ s.context < s.stack.ss_sp + s.stack.ss_size

instance (s : SignalState τ) : Decidable s.OnStack := inferInstanceAs (Decidable (_ ∧ _ ∧ _))

/-- What is refused of a new stack before anything else is done, and why. -/
def refused (new : SignalStack) : Option ErrNo :=
  if new.ss_flags &&& SS_ONSTACK ≠ 0 then
    if new.ss_sp = 0 ∨ !isAlligned new.ss_sp.toNat 4 then some .EINVAL
    else if new.ss_size < MINSIGSTKSZ then some .ENOMEM
    else none
  else none

/-- The second half of `sigaltstack`. -/
def exchange (s : SignalState τ) (newSignalStack oldSignalStack : Option ℕ) : ℤ × SignalState τ :=
  let s := match oldSignalStack with
    | some p => { s with mem := Function.update s.mem p s.stack }
    | none => s
  match newSignalStack with
  | some p =>
    if s.OnStack then
      (-ErrNo.EINVAL.val, exitKernel scheduleInKernel curthreadUnsafe { s with error := .EPERM })
    -- The result of `alignDown` is not used.
    else (-ErrNo.ENONE.val, { s with stack := s.mem p })
  | none => (-ErrNo.ENONE.val, s)

/-- `sigaltstack`, with pointers to descriptors of the caller (`none` is the null pointer). -/
def sigaltstack (s : SignalState τ) (newSignalStack oldSignalStack : Option ℕ) :
    ℤ × SignalState τ :=
  match newSignalStack.bind fun p => refused (s.mem p) with
  | some e => (-e.val, { s with error := e })
  | none => s.exchange scheduleInKernel curthreadUnsafe newSignalStack oldSignalStack

/-! ## What is asked -/

/-- The thread is executing on its alternate stack. -/
def Executing (s : SignalState τ) : Prop :=
  s.stack.ss_flags &&& SS_ONSTACK ≠ 0 ∧ s.stack.ss_sp.toNat ≤ s.context.toNat ∧
    s.context.toNat < s.stack.ss_sp.toNat + s.stack.ss_size.toNat

/-- The stack may be installed. -/
def Acceptable (s : SignalState τ) (new : SignalStack) : Prop :=
  new.ss_sp ≠ 0 ∧ new.ss_sp.toNat % 4 = 0 ∧ MINSIGSTKSZ ≤ new.ss_size ∧ ¬s.Executing

/-- The descriptor that is to be installed. -/
def rounded (new : SignalStack) : SignalStack :=
  { new with ss_size := BitVec.ofNat 32 (new.ss_size.toNat / 4 * 4) }

/-- A call installs the stack it is to install, and is told so; or it fails with the error that is
    set, and the descriptor, the lock and the counter of the kernel are as before. -/
structure Sound (s : SignalState τ) (new : ℕ) (old : Option ℕ) (r : ℤ × SignalState τ) : Prop where
  succeeds_iff : r.1 = 0 ↔ s.Acceptable (s.mem new)
  installed : r.1 = 0 →
    ∀ q, ((r.2.sigaltstack scheduleInKernel curthreadUnsafe none (some q)).2.mem q) =
    rounded (s.mem new)
  refused : r.1 ≠ 0 → r.1 < 0 ∧ r.1 = -r.2.error.val ∧ r.2.stack = s.stack ∧
    r.2.kernelLock = s.kernelLock ∧ r.2.kernelCounter = s.kernelCounter

/-- The stack is too small, null, or beyond the addresses that are taken for aligned and not to be
    installed for another reason. -/
def Spared (s : SignalState τ) (new : SignalStack) : Prop :=
  new.ss_size < MINSIGSTKSZ ∨ new.ss_sp = 0 ∨
    4 ≤ new.ss_sp.toNat ∧ (new.ss_sp.toNat % 4 ≠ 0 ∨ s.Executing)

variable {scheduleInKernel curthreadUnsafe} {s : SignalState τ} {new : ℕ}
    {old : Option ℕ} {e : ErrNo}
  {n : SignalStack}

theorem isAlligned_four (n : SignalStack) : isAlligned n.ss_sp.toNat 4 ↔ n.ss_sp.toNat < 4 :=
  isAlligned_two_pow (k := 2) n.ss_sp.isLt (by decide)

theorem exitKernel_error : (exitKernel scheduleInKernel curthreadUnsafe s).error = s.error := by
  rw [exitKernel]
  dsimp only
  split_ifs <;> rfl

/-- What is refused first is refused as it should be, unless it is acceptable. -/
theorem sound_iff_of_refused (h : refused (s.mem new) = some e) (he : 0 < e.val) :
    Sound scheduleInKernel curthreadUnsafe s new old
        (sigaltstack scheduleInKernel curthreadUnsafe s (some new) old) ↔
      ¬s.Acceptable (s.mem new) := by
  have hcall : sigaltstack scheduleInKernel curthreadUnsafe s (some new) old =
      (-e.val, { s with error := e }) := by
    simp only [sigaltstack, Option.bind_some, h]
  have hne : -e.val ≠ 0 := by omega
  rw [hcall]
  constructor
  · exact fun hs hacc => hne (hs.succeeds_iff.2 hacc)
  · exact fun hacc => ⟨iff_of_false hne hacc, fun h => absurd h hne,
      fun _ => ⟨by dsimp only; omega, rfl, rfl, rfl, rfl⟩⟩

/-- Otherwise the stack is installed, or the thread found to be on its own, with two different
    errors. -/
theorem exchange_cases (scheduleInKernel curthreadUnsafe : τ → τ) (s : SignalState τ) (new : ℕ)
    (old : Option ℕ) :
    (s.exchange scheduleInKernel curthreadUnsafe (some new) old).1 = 0 ∨
      (s.exchange scheduleInKernel curthreadUnsafe (some new) old).1 = -22 ∧
        (s.exchange scheduleInKernel curthreadUnsafe (some new) old).2.error = .EPERM := by
  simp only [exchange]
  split_ifs
  · exact .inr ⟨rfl, exitKernel_error⟩
  · exact .inl rfl

/-- What is not refused first is not handled as it should be. -/
theorem not_sound_of_refused_eq_none (h : refused (s.mem new) = none)
    (hn : ¬s.Acceptable (s.mem new)) :
    ¬Sound scheduleInKernel curthreadUnsafe s new old
        (sigaltstack scheduleInKernel curthreadUnsafe s (some new) old) := by
  intro hs
  simp only [sigaltstack, Option.bind_some, h] at hs
  rcases exchange_cases scheduleInKernel curthreadUnsafe s new old with h₀ | ⟨hret, herr⟩
  · exact hn (hs.succeeds_iff.1 h₀)
  · have hval := (hs.refused (by rw [hret]; decide)).2.1
    rw [hret, herr] at hval
    exact absurd hval (by decide)

/-- With `SS_ONSTACK`, only what is at the addresses 1 to 3 is not refused first. -/
theorem refused_eq_none (hflags : n.ss_flags &&& SS_ONSTACK ≠ 0) :
    refused n = none ↔ n.ss_sp ≠ 0 ∧ n.ss_sp.toNat < 4 ∧ ¬n.ss_size < MINSIGSTKSZ := by
  rw [refused, if_pos hflags, ← isAlligned_four]
  split_ifs with h h'
  · refine iff_of_false id fun hn => ?_
    rcases h with h | h
    · exact hn.1 h
    · simp [hn.2.1] at h
  · exact iff_of_false id fun hn => hn.2.2 h'
  · refine iff_of_true rfl ?_
    obtain ⟨hsp, hal⟩ := not_or.1 h
    exact ⟨hsp, by simpa using hal, h'⟩

theorem refused_error (h : refused n = some e) : 0 < e.val := by
  rw [refused] at h
  split_ifs at h <;> obtain rfl := Option.some.inj h <;> decide

theorem not_acceptable_iff : ¬s.Acceptable n ↔
    n.ss_size < MINSIGSTKSZ ∨ n.ss_sp = 0 ∨ n.ss_sp.toNat % 4 ≠ 0 ∨ s.Executing := by
  rw [Acceptable, ← BitVec.not_lt]
  tauto

/-- A call with `SS_ONSTACK` does what it should just if the stack is spared. -/
theorem sigaltstack_iff (hflags : (s.mem new).ss_flags &&& SS_ONSTACK ≠ 0) :
    Sound scheduleInKernel curthreadUnsafe s new old
        (sigaltstack scheduleInKernel curthreadUnsafe s (some new) old) ↔
      s.Spared (s.mem new) := by
  have hpos : (s.mem new).ss_sp ≠ 0 → 0 < (s.mem new).ss_sp.toNat := fun h =>
    Nat.pos_of_ne_zero fun h₀ => h (BitVec.eq_of_toNat_eq h₀)
  have hnone := refused_eq_none hflags
  cases h : refused (s.mem new) with
  | none =>
    obtain ⟨hsp, hlt, hsize⟩ := hnone.1 h
    have hmod : (s.mem new).ss_sp.toNat % 4 ≠ 0 := by
      have hpos := hpos hsp
      omega
    refine iff_of_false (not_sound_of_refused_eq_none h fun hacc => hmod hacc.2.1) ?_
    rintro (h₁ | h₂ | ⟨h₃, -⟩)
    · exact hsize h₁
    · exact hsp h₂
    · omega
  | some e =>
    rw [sound_iff_of_refused h (refused_error h), not_acceptable_iff, Spared]
    by_cases hsize : (s.mem new).ss_size < MINSIGSTKSZ
    · exact iff_of_true (.inl hsize) (.inl hsize)
    by_cases hsp : (s.mem new).ss_sp = 0
    · exact iff_of_true (.inr (.inl hsp)) (.inr (.inl hsp))
    -- It would not have been refused below 4.
    have hfour : 4 ≤ (s.mem new).ss_sp.toNat := Nat.not_lt.1 fun hlt =>
      Option.some_ne_none e (h.symm.trans (hnone.2 ⟨hsp, hlt, hsize⟩))
    rw [or_iff_right hsize, or_iff_right hsp, or_iff_right hsize, or_iff_right hsp,
      and_iff_right hfour]

/-- A thread that is executing at `0x10100`, with this alternate stack, the caller's descriptors
    being alike. -/
def sample (stack n : SignalStack) : SignalState Unit where
  stack := stack
  context := 0x10100
  mem _ := n
  error := .ENONE
  kernelCounter := 1
  kernelLock := 1
  kernelOwer := 0
  kernelEnterFunc := 0
  interruptNestingCounter := 0
  threads := ()

theorem sound_unaligned :
    Sound id id (sample ⟨0, 0, 0⟩ ⟨0x20002, 1, 8192⟩) 0 none
      (sigaltstack id id (sample ⟨0, 0, 0⟩ ⟨0x20002, 1, 8192⟩) (some 0) none) :=
  (sigaltstack_iff (by decide)).2 (.inr (.inr ⟨by decide, .inl (by decide)⟩))

/-- A stack that is aligned is refused; and for a thread on its alternate stack, an error is set
    that is not returned. -/
theorem not_sound_aligned :
    ¬Sound id id (sample ⟨0, 0, 0⟩ ⟨0x20000, 1, 8192⟩) 0 none
      (sigaltstack id id (sample ⟨0, 0, 0⟩ ⟨0x20000, 1, 8192⟩) (some 0) none) ∧
    ¬Sound id id (sample ⟨0x10000, 1, 8192⟩ ⟨1, 1, 8192⟩) 0 none
      (sigaltstack id id (sample ⟨0x10000, 1, 8192⟩ ⟨1, 1, 8192⟩) (some 0) none) := by
  constructor
  · intro h
    have hret := h.succeeds_iff.2 ⟨by decide, by decide, by decide, fun hex => hex.1 (by decide)⟩
    exact absurd hret (by decide)
  · intro h
    have hval := (h.refused (by decide)).2.1
    exact absurd hval (by decide)

end SignalState

end DemoOs
