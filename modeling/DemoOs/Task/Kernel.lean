import DemoOs.Lib.Ring
import DemoOs.Types

/-!
# Threads and the lists they are in

A thread has one link, `_commList`, for all lists it may be in: the free list of the thread manager,
the ready ring of its priority, and the waiter lists of the semaphores. The nodes of these rings
(`Node`) are the `_commList`s of the threads and the headers of the lists (`Hdr`).

The source computes a thread from its node, without a check that the node is not a header
(`List_Entry`). A thread pointer is hence a `Node` here, and every node has the fields of a thread,
those of a header being whatever the memory around it holds.
-/

namespace DemoOs

/-- `tid_t`, which is also the index of a thread in the thread pool. -/
abbrev Tid := Fin (2 ^ 16)

/-- Priorities, from `0` to `MaxPriority`. -/
abbrev Prio := Fin 256

/-- Numerals are threads. -/
instance instNeZeroTid : NeZero (2 ^ 16) := ⟨by decide⟩

/-- Numerals are priorities. -/
instance instNeZeroPrio : NeZero 256 := ⟨by decide⟩

/-- The headers: of the free list, of the ready ring of each priority, and of the waiter list of
    each semaphore. -/
inductive Hdr
  | free
  | ready (p : Prio)
  | waiters (σ : ℕ)
  deriving DecidableEq

/-- The list nodes: a header, or the `_commList` of a thread. -/
inductive Node
  | hdr (h : Hdr)
  | thread (t : Tid)
  deriving DecidableEq

/-- `Procedure::State`. -/
inductive State
  | stopped
  | ready
  | waiting
  | lock
  | waitingNextActivation
  | delayedStart
  | running
  deriving DecidableEq

/-- The fields of a thread used by the scheduler. -/
structure Thread where
  state : State
  priority : Prio
  execTicks : ℕ
  totalTicks : ℕ
  /-- The process of the thread, none being the null pointer. -/
  proc : Option ℕ

/-- The nodes of the thread lists of processes: their header, or the `_procList` of a thread. -/
inductive ProcNode
  | hdr (pid : ℕ)
  | thread (x : Node)
  deriving DecidableEq

/-- The state of the scheduler, of the thread manager and of the semaphores. -/
structure Kernel where
  /-- The links of all nodes. -/
  links : Links Node
  /-- The thread of each node. -/
  thr : Node → Thread
  curThread : Node
  higherPriorityThread : Option Node
  maxPrio : ℤ
  /-- The cursor of each ready ring. -/
  curNodeInGroup : Prio → Option Node
  /-- The value of each semaphore. -/
  val : ℕ → ℤ
  procLinks : Links ProcNode
  threadCounter : ℕ → ℕ
  curUsedThreadNum : ℕ
  maxUsedThreadNum : ℕ

namespace Kernel

/-- Changing the fields of a thread. -/
def modThread (k : Kernel) (x : Node) (f : Thread → Thread) : Kernel :=
  { k with thr := Function.update k.thr x (f (k.thr x)) }

/-- `x->_state = s`. -/
def setState (k : Kernel) (x : Node) (s : State) : Kernel :=
  k.modThread x fun t => { t with state := s }

section Simp

variable (k : Kernel) (x : Node) (f : Thread → Thread) (s : State)

@[simp] theorem modThread_links : (k.modThread x f).links = k.links := rfl

@[simp] theorem modThread_curThread : (k.modThread x f).curThread = k.curThread := rfl

@[simp] theorem modThread_maxPrio : (k.modThread x f).maxPrio = k.maxPrio := rfl

@[simp] theorem modThread_curNodeInGroup :
    (k.modThread x f).curNodeInGroup = k.curNodeInGroup := rfl

@[simp] theorem modThread_higherPriorityThread :
    (k.modThread x f).higherPriorityThread = k.higherPriorityThread := rfl

@[simp] theorem modThread_val : (k.modThread x f).val = k.val := rfl

@[simp] theorem modThread_thr (y : Node) :
    (k.modThread x f).thr y = if y = x then f (k.thr y) else k.thr y := by
  by_cases h : y = x <;> simp [modThread, h]

@[simp] theorem setState_links : (k.setState x s).links = k.links := rfl

@[simp] theorem setState_curThread : (k.setState x s).curThread = k.curThread := rfl

@[simp] theorem setState_maxPrio : (k.setState x s).maxPrio = k.maxPrio := rfl

@[simp] theorem setState_curNodeInGroup :
    (k.setState x s).curNodeInGroup = k.curNodeInGroup := rfl

@[simp] theorem setState_higherPriorityThread :
    (k.setState x s).higherPriorityThread = k.higherPriorityThread := rfl

@[simp] theorem setState_val : (k.setState x s).val = k.val := rfl

@[simp] theorem setState_state (y : Node) :
    ((k.setState x s).thr y).state = if y = x then s else (k.thr y).state := by
  by_cases h : y = x <;> simp [setState, h]

@[simp] theorem setState_priority (y : Node) :
    ((k.setState x s).thr y).priority = (k.thr y).priority := by
  by_cases h : y = x <;> simp [setState, h]

end Simp

/-- The ready ring `_priorityArray[i]`, if there is one. -/
def group (i : ℤ) : Option Prio :=
  if h : 0 ≤ i ∧ i < 256 then some ⟨i.toNat, by omega⟩ else none

@[simp] theorem group_coe (p : Prio) : group (p : ℕ) = some p := by
  have := p.isLt
  rw [group, dif_pos ⟨by omega, by omega⟩]
  rfl

/-- The thread `t` is linked in the list of the header `h`. -/
def OnList (k : Kernel) (h : Hdr) (t : Tid) : Prop := k.links.Reaches (.hdr h) (.thread t)

end Kernel

end DemoOs
