import DemoOs.Task.Schedule

/-!
# Semaphores

The functions of `semaphore.cpp`. A semaphore has a value, negative while threads wait, and a list
of waiters. `lock` is a loop: its section under the spinlock (`lockSection`) either takes a permit
or puts the caller on the waiter list; the caller then calls the scheduler and, once it runs again,
starts over. `unlock` wakes all waiters, giving back what each of them has taken off the value.
-/

namespace DemoOs

namespace Kernel

/-- `Semaphore::init`. -/
def initSem (k : Kernel) (σ : ℕ) (val : ℤ) : Kernel :=
  { k with
    val := Function.update k.val σ val
    links := k.links.initRing (.hdr (.waiters σ)) }

/-- The section of `Semaphore::lock` under the spinlock, with whether the caller is now waiting. -/
def lockSection (k : Kernel) (σ : ℕ) : Option (Kernel × Bool) := do
  let k := { k with val := Function.update k.val σ (sint (k.val σ - 1)) }
  if k.val σ < 0 then do
    let k ← k.suspend k.curThread
    let links ← k.links.insertBefore (.hdr (.waiters σ)) k.curThread
    some ({ k with links := links }, true)
  else some (k, false)

/-- `Semaphore::lock` up to its return, or to the next turn of its loop: whether the caller is
    waiting, and whether the scheduler has switched to another thread. -/
def lock (k : Kernel) (σ : ℕ) : Option (Kernel × Bool × Bool) := do
  let (k, blocked) ← k.lockSection σ
  if blocked then do
    -- `scheduleInSemaphore` is `scheduleInInterrupt`.
    let (k, switched) ← k.scheduleInInterrupt
    some (k, true, switched)
  else some (k, false, false)

/-- `Semaphore::trylock`. -/
def trylock (k : Kernel) (σ : ℕ) : Kernel × Bool :=
  if k.val σ > 0 then
    ({ k with val := Function.update k.val σ (sint (k.val σ - 1)) }, true)
  else (k, false)

/-- `++_val`. -/
def incVal (k : Kernel) (σ : ℕ) : Kernel :=
  { k with val := Function.update k.val σ (sint (k.val σ + 1)) }

/-- The loop of `Semaphore::unlock`, at the waiter `p` followed by `n`. -/
def wakeAll (σ : ℕ) : ℕ → Kernel → Node → Node → Option Kernel
  | 0, _, _, _ => none
  | fuel + 1, k, p, n =>
    if p = .hdr (.waiters σ) then some k
    else do
      let k := k.incVal σ
      let links ← k.links.erase p
      let k := { k with links := links }
      let k ← k.wakeup p p
      let n' ← k.links.next n
      wakeAll σ fuel k n n'

/-- `Semaphore::unlock`. -/
def unlock (k : Kernel) (σ : ℕ) : Option Kernel := do
  let k := k.incVal σ
  let p ← k.links.next (.hdr (.waiters σ))
  let n ← k.links.next p
  wakeAll σ (2 ^ 32) k p n

/-- `Semaphore::blkTaskCount`. -/
def blkTaskCount (k : Kernel) (σ : ℕ) : ℤ := if k.val σ ≥ 0 then 0 else sint (-k.val σ)

end Kernel

end DemoOs
