import DemoOs.Ipc.Waiters
import DemoOs.Lib.Run

/-!
# The kernel as a transition system

The calls into the thread manager, the scheduler and the semaphores (`Op`), as the steps of a
transition system on `Kernel` (`step`). Ticks, `scheduleInKernel` and the operations on semaphores
are those of the current thread. Which calls may be made in which states is up to the guard of a run
(`Run`).
-/

namespace DemoOs

/-- The calls into the kernel. -/
inductive Op
  | create
  | addThread (pid : ℕ) (t : Tid)
  | destroy (t : Tid)
  | append (t : Tid)
  | push (t : Tid)
  | remove (t : Tid)
  | suspend (t : Tid)
  /-- `t->wakeup(u)`. -/
  | wakeup (t u : Tid)
  /-- `scheduleInInterrupt`. -/
  | tick
  | scheduleInKernel
  | lock (σ : ℕ)
  | trylock (σ : ℕ)
  | unlock (σ : ℕ)
  deriving DecidableEq

namespace Kernel

/-- The kernel after a call. -/
def step (k : Kernel) : Op → Option Kernel
  | .create => k.createThread.map Prod.fst
  | .addThread pid t => k.addThread pid (.thread t)
  | .destroy t => k.destroyThread (.thread t)
  | .append t => k.append (.thread t)
  | .push t => k.push (.thread t)
  | .remove t => k.remove (.thread t)
  | .suspend t => k.suspend (.thread t)
  | .wakeup t u => k.wakeup (.thread t) (.thread u)
  | .tick => k.scheduleInInterrupt.map Prod.fst
  | .scheduleInKernel => k.scheduleInKernel
  | .lock σ => (k.lock σ).map Prod.fst
  | .trylock σ => some (k.trylock σ).1
  | .unlock σ => k.unlock σ

/-- The thread is in no list. -/
def Unlinked (k : Kernel) (t : Tid) : Prop := ∀ h, ¬k.OnList h t

/-- The semaphore has no permit left: a call to `lock` puts its caller on the waiter list. -/
def Blocks (k : Kernel) (σ : ℕ) : Prop := sint (k.val σ - 1) < 0

variable {k k' : Kernel} {R : Hdr → Cycle Node} {t : Tid} {σ : ℕ}

theorem Shape.unlinked_iff (hs : Shape k R) : k.Unlinked t ↔ ∀ h, .thread t ∉ R h := by
  simp only [Unlinked, hs.onList_iff]

theorem Shape.unlinked_of_null (hs : Shape k R) (hnull : k.links.next (.thread t) = none) :
    k.Unlinked t := by
  refine hs.unlinked_iff.2 fun h ht => ?_
  obtain ⟨y, -, hlink⟩ := (hs.rings.ring h).exists_next ht
  exact nomatch hnull.symm.trans hlink.1

/-- The thread has no list of its own other than a ready ring. -/
def OnlyReady (k : Kernel) (t : Tid) : Prop := ∀ h, k.OnList h t → ∃ p, h = .ready p

theorem Shape.onlyReady_iff (hs : Shape k R) :
    k.OnlyReady t ↔ ∀ h, .thread t ∈ R h → ∃ p, h = .ready p := by
  simp only [OnlyReady, hs.onList_iff]

/-- A thread leaving its ready ring by a call that returns is in one. -/
theorem Shape.mem_ready_of_suspend (hs : Shape k R) (ht : k.OnlyReady t)
    (hsusp : k.suspend (.thread t) ≠ none) : ∃ p, .thread t ∈ R (.ready p) := by
  by_contra hno
  push Not at hno
  refine hsusp (suspend_of_prev_eq_none (hs.rings.null fun j hj => ?_).2)
  obtain ⟨p, rfl⟩ := (hs.onlyReady_iff.1 ht) j hj
  exact hno p hj

/-- A caller that blocks, and does not follow a null pointer, is in its ready ring. -/
theorem Shape.mem_ready_of_lock (hs : Shape k R) (hcur : k.curThread = .thread t)
    (ht : k.OnlyReady t) (hblocks : k.Blocks σ) (hlock : k.lock σ ≠ none) :
    ∃ p, .thread t ∈ R (.ready p) := by
  have hs' : Shape (k.decVal σ) R := hs.congr rfl rfl fun _ => rfl
  refine hs'.mem_ready_of_suspend ht fun hnone => ?_
  rw [Kernel.lock, lockSection_eq, if_pos (show sint (k.val σ - 1) < 0 from hblocks), hcur,
    hnone] at hlock
  exact hlock rfl

/-- `trylock` concerns the value of the semaphore only. -/
theorem exists_trylock_eq (k : Kernel) (σ : ℕ) : ∃ v, (k.trylock σ).1 = { k with val := v } := by
  rw [trylock]
  split_ifs
  exacts [⟨_, rfl⟩, ⟨k.val, rfl⟩]

end Kernel

end DemoOs
