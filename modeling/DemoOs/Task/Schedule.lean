import DemoOs.Task.Kernel

/-!
# The scheduler

The functions of `schedule.cpp`, of `thread.cpp` and of `threadmanager.cpp`, on the state of the
kernel. A function returns none when it follows a null pointer, indexes `_priorityArray` out of its
bounds, or walks along a ring without end. Sections under a lock are atomic; the assertions are
empty in the kernel as it is built, and so is the tracing output.

`scheduleInInterrupt` also says whether it called `switchContext`, which makes
`_higherPriorityThread` the current thread (`contextSwitch.S`).
-/

namespace DemoOs

namespace Kernel

/-! ## `schedule.cpp` -/

/-- The common body of `push` and `append`, which differ in where the thread goes relative to the
    cursor of its ready ring. -/
def enqueue (insert : Links Node → Node → Node → Option (Links Node)) (k : Kernel)
    (newThread : Node) : Option Kernel :=
  if (k.thr newThread).state = .ready then do
    let newPrio := (k.thr newThread).priority
    let cursor ← k.curNodeInGroup newPrio
    let links ← insert k.links cursor newThread
    let k := { k with links := links }
    if k.maxPrio < (newPrio : ℤ) then
      some { k with maxPrio := newPrio, higherPriorityThread := some newThread }
    else some k
  else some k

/-- `Scheduler::push`: right after the cursor. -/
def push : Kernel → Node → Option Kernel := enqueue Links.insertAfter

/-- `Scheduler::append`: right before the cursor. -/
def append : Kernel → Node → Option Kernel := enqueue Links.insertBefore

/-- `Scheduler::remove`. -/
def remove (k : Kernel) (delThread : Node) : Option Kernel := do
  let cursors := Function.update k.curNodeInGroup (k.thr delThread).priority
    (k.links.next delThread)
  let links ← k.links.erase delThread
  some { k with curNodeInGroup := cursors, links := links }

/-- The loop of `findNextThread` from `p` on: the first thread that is ready, or the cursor itself
    once the loop is back there. -/
def findReady (k : Kernel) (header cursor : Node) : ℕ → Node → Option Node
  | 0, _ => none
  | fuel + 1, p =>
    if p = cursor then some cursor
    else if p ≠ header ∧ (k.thr p).state = .ready then some p
    else (k.links.next p).bind (findReady k header cursor fuel)

/-- `Scheduler::findNextThread`. The cursor moves to the thread found; when none was found, it is
    already there. -/
def findNextThread (k : Kernel) : Option (Kernel × Node) := do
  let q ← group k.maxPrio
  let cursor ← k.curNodeInGroup q
  let first ← k.links.next cursor
  let next ← findReady k (.hdr (.ready q)) cursor (2 ^ 32) first
  some ({ k with curNodeInGroup := Function.update k.curNodeInGroup q (some next) }, next)

/-- `contextSwitch`: the current thread is now `_higherPriorityThread`. -/
def switchContext (k : Kernel) : Option Kernel :=
  k.higherPriorityThread.map fun x => { k with curThread := x }

/-- `Scheduler::scheduleInInterrupt`, with whether it called `switchContext`. -/
def scheduleInInterrupt (k : Kernel) : Option (Kernel × Bool) :=
  let k := k.modThread k.curThread fun t => { t with execTicks := word (t.execTicks + 1) }
  let cur := k.thr k.curThread
  if k.maxPrio > (cur.priority : ℤ) then do
    let q ← group k.maxPrio
    let high ← k.higherPriorityThread
    let k := { k with curNodeInGroup := Function.update k.curNodeInGroup q (some high) }
    let k := if cur.execTicks ≥ cur.totalTicks then
        k.modThread k.curThread fun t => { t with execTicks := 0 }
      else k
    -- The states of the two threads stay as they are.
    let k ← k.switchContext
    some (k, true)
  else if cur.execTicks ≥ cur.totalTicks then do
    let k := k.modThread k.curThread fun t => { t with execTicks := 0 }
    let (k, nextThread) ← k.findNextThread
    if nextThread = k.curThread then some (k, false)
    else
      let k := k.setState k.curThread .ready
      let k := k.setState nextThread .running
      let k := { k with higherPriorityThread := some nextThread }
      let k ← k.switchContext
      some (k, true)
  else some (k, false)

/-- `Scheduler::scheduleInKernel`. -/
def scheduleInKernel (k : Kernel) : Option Kernel := do
  let (k, nextThread) ← k.findNextThread
  if nextThread = k.curThread then some k
  else some ((k.setState k.curThread .ready).setState nextThread .running)

/-! ## `thread.cpp` -/

/-- `Thread::suspend(tid)`, `that` being the thread of that id, whoever calls it. -/
def suspend (k : Kernel) (that : Node) : Option Kernel := do
  let k ← k.remove that
  some (k.setState that .waiting)

/-- `Thread::wakeup(tid)` of the thread `this`, `that` being the thread of that id. -/
def wakeup (k : Kernel) (this that : Node) : Option Kernel :=
  if (k.thr this).state = .waiting then (k.setState that .ready).append this
  else some k

/-! ## `threadmanager.cpp` and `generalproc.h` -/

/-- `InherentThreadNum`, the size of the thread pool. -/
def inherentThreadNum : ℕ := 200

/-- `ThreadManager::init`: all threads of the pool go to the free list. -/
def initThreadManager (k : Kernel) : Option Kernel := do
  let k := { k with links := k.links.initRing (.hdr .free), curUsedThreadNum := 0,
                    maxUsedThreadNum := 0 }
  let links ← ((List.range inherentThreadNum).map (Fin.ofNat (2 ^ 16))).foldlM
    (fun L i => L.insertBefore (.hdr .free) (.thread i)) k.links
  some { k with links := links }

/-- `ThreadManager::allocate`. -/
def allocate (k : Kernel) : Option (Kernel × Node) := do
  let p ← k.links.next (.hdr .free)
  let links ← k.links.erase p
  let used := word (k.curUsedThreadNum + 1)
  some ({ k with links := links, curUsedThreadNum := used,
                 maxUsedThreadNum := if used > k.maxUsedThreadNum then used
                   else k.maxUsedThreadNum }, p)

/-- `ThreadManager::deallocate`. -/
def deallocate (k : Kernel) (thread : Node) : Option Kernel := do
  let k := k.setState thread .stopped
  let links ← k.links.insertBefore (.hdr .free) thread
  some { k with links := links, curUsedThreadNum := wordSub k.curUsedThreadNum 1 }

/-- `ThreadManager::createThread`, without the stack of the thread and its context. -/
def createThread (k : Kernel) : Option (Kernel × Node) := do
  let (k, thread) ← k.allocate
  some (k.modThread thread fun t =>
    { t with proc := none, state := .ready, execTicks := 0, totalTicks := 10 }, thread)

/-- `GeneralProc::addThread`. -/
def addThread (k : Kernel) (pid : ℕ) (thread : Node) : Option Kernel := do
  let k := if (k.thr thread).proc = none then k.modThread thread fun t =>
    { t with proc := some pid }
    else k
  let procLinks ← k.procLinks.insertBefore (.hdr pid) (.thread thread)
  some { k with procLinks := procLinks }

/-- `ThreadManager::destroyThread`. The thread counter of a process has 12 bits. -/
def destroyThread (k : Kernel) (thread : Node) : Option Kernel := do
  let pid ← (k.thr thread).proc
  let counters :=
    Function.update k.threadCounter pid ((k.threadCounter pid + (2 ^ 12 - 1)) % 2 ^ 12)
  let procLinks ← k.procLinks.erase (.thread thread)
  { k with threadCounter := counters, procLinks := procLinks }.deallocate thread

/-! ## Start-up -/

/-- The memory at start-up: all static storage is zero, except for the priorities `prio` of the
    threads. The memory `mem` around the list headers and the values of the semaphores are
    anything. -/
def zero (prio : Tid → Prio) (mem : Hdr → Thread) (val : ℕ → ℤ) : Kernel where
  links := ⟨fun _ => none, fun _ => none⟩
  thr x := match x with
    | .hdr h => mem h
    | .thread t => ⟨.stopped, prio t, 0, 0, none⟩
  curThread := .hdr .free
  higherPriorityThread := none
  maxPrio := 0
  curNodeInGroup := fun _ => none
  val := val
  procLinks := ⟨fun _ => none, fun _ => none⟩
  threadCounter := fun _ => 0
  curUsedThreadNum := 0
  maxUsedThreadNum := 0

/-- The headers of the ready rings are initialised, with the cursors at them; so are the waiter
    lists of the semaphores (`Semaphore::init`) and the thread lists of the processes
    (`GeneralProc::init`). -/
def initHeaders (k : Kernel) : Kernel :=
  { k with
    links :=
      { next := fun x => match x with
          | .hdr (.ready p) => some (.hdr (.ready p))
          | .hdr (.waiters σ) => some (.hdr (.waiters σ))
          | x => k.links.next x
        prev := fun x => match x with
          | .hdr (.ready p) => some (.hdr (.ready p))
          | .hdr (.waiters σ) => some (.hdr (.waiters σ))
          | x => k.links.prev x }
    procLinks :=
      { next := fun x => match x with
          | .hdr pid => some (.hdr pid)
          | x => k.procLinks.next x
        prev := fun x => match x with
          | .hdr pid => some (.hdr pid)
          | x => k.procLinks.prev x }
    curNodeInGroup := fun p => some (.hdr (.ready p)) }

/-- An idle thread is created for the root process, of id `0`, and is the current thread. -/
def startIdle (k : Kernel) : Option Kernel := do
  let (k, thread) ← k.createThread
  let k := { k with curThread := thread }
  let k ← k.addThread 0 thread
  k.append thread

/-- `Scheduler::init`: the ready rings, and two idle threads. -/
def initScheduler (k : Kernel) : Option Kernel := do
  let k := { k with maxPrio := -1, higherPriorityThread := none }.initHeaders
  let k ← k.startIdle
  k.startIdle

/-- `Scheduler::start`. -/
def start (k : Kernel) : Kernel :=
  let k := k.setState k.curThread .running
  let cursors := Function.update k.curNodeInGroup (k.thr k.curThread).priority (some k.curThread)
  { k with curNodeInGroup := cursors }

/-- The kernel after `Scheduler::start`. -/
def boot (prio : Tid → Prio) (mem : Hdr → Thread) (val : ℕ → ℤ) : Option Kernel := do
  let k ← (zero prio mem val).initThreadManager
  let k ← k.initScheduler
  some k.start

end Kernel

end DemoOs
