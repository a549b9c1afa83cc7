import DemoOs.Task.Rings

/-!
# Ticks, suspensions and wake-ups

What the entry points of the scheduler do in a well-formed kernel:

* `Shape.scheduleInInterrupt`: a tick switches to the thread of higher priority, if there is one
  (`Pending`), and looks for the next thread when the time slice is over (`Expiring`);
* `Shape.suspend`: a thread leaves its ready ring;
* `Shape.wakeup_self`: a waiting thread in no list enters its ready ring. When a thread wakes up
  another one, only the state of that one changes (`wakeup_of_ne`).
-/

namespace DemoOs

namespace Kernel

variable {k : Kernel} {R : Hdr → Cycle Node} {t u : Tid} {p : Prio} {x : Node}

/-! ## Ticks -/

/-- `++_curThread->_execTicks`, or the reset of the ticks. -/
def charge (k : Kernel) (n : ℕ) : Kernel :=
  k.modThread k.curThread fun t => { t with execTicks := n }

/-- A switch from the current thread to `x` when the time slice is over. -/
def dispatch (k : Kernel) (x : Node) : Kernel :=
  { (k.setState k.curThread .ready).setState x .running with
    higherPriorityThread := some x, curThread := x }

/-- A switch to the thread `x` of the higher priority `p`. -/
def preempt (k : Kernel) (p : Prio) (x : Node) : Kernel :=
  { k.setCursor p x with curThread := x }

section Simp

variable (k : Kernel) (n : ℕ) (p : Prio) (x y : Node)

@[simp] theorem charge_links : (k.charge n).links = k.links := rfl

@[simp] theorem charge_curThread : (k.charge n).curThread = k.curThread := rfl

@[simp] theorem charge_maxPrio : (k.charge n).maxPrio = k.maxPrio := rfl

@[simp] theorem charge_curNodeInGroup : (k.charge n).curNodeInGroup = k.curNodeInGroup := rfl

@[simp] theorem charge_higherPriorityThread :
    (k.charge n).higherPriorityThread = k.higherPriorityThread := rfl

@[simp] theorem charge_val : (k.charge n).val = k.val := rfl

@[simp] theorem charge_state : ((k.charge n).thr y).state = (k.thr y).state := by
  simp only [charge, modThread_thr]
  split_ifs <;> rfl

@[simp] theorem charge_priority : ((k.charge n).thr y).priority = (k.thr y).priority := by
  simp only [charge, modThread_thr]
  split_ifs <;> rfl

@[simp] theorem charge_totalTicks : ((k.charge n).thr y).totalTicks = (k.thr y).totalTicks := by
  simp only [charge, modThread_thr]
  split_ifs <;> rfl

@[simp] theorem charge_execTicks : ((k.charge n).thr k.curThread).execTicks = n := by
  simp [charge]

/-- What has been charged last counts. -/
@[simp] theorem charge_charge (m : ℕ) : (k.charge n).charge m = k.charge m := by
  simp [charge, modThread]

@[simp] theorem dispatch_links : (k.dispatch x).links = k.links := rfl

@[simp] theorem dispatch_curThread : (k.dispatch x).curThread = x := rfl

@[simp] theorem dispatch_maxPrio : (k.dispatch x).maxPrio = k.maxPrio := rfl

@[simp] theorem dispatch_curNodeInGroup : (k.dispatch x).curNodeInGroup = k.curNodeInGroup := rfl

@[simp] theorem dispatch_higherPriorityThread :
    (k.dispatch x).higherPriorityThread = some x := rfl

@[simp] theorem dispatch_val : (k.dispatch x).val = k.val := rfl

@[simp] theorem dispatch_state :
    ((k.dispatch x).thr y).state =
      if y = x then .running else if y = k.curThread then .ready else (k.thr y).state :=
  (setState_state ..).trans (by rw [setState_state])

@[simp] theorem dispatch_priority : ((k.dispatch x).thr y).priority = (k.thr y).priority :=
  (setState_priority ..).trans (setState_priority ..)

@[simp] theorem dispatch_totalTicks :
    ((k.dispatch x).thr y).totalTicks = (k.thr y).totalTicks := by
  simp only [dispatch, setState, modThread_thr]
  split_ifs <;> rfl

@[simp] theorem preempt_links : (k.preempt p x).links = k.links := rfl

@[simp] theorem preempt_curThread : (k.preempt p x).curThread = x := rfl

@[simp] theorem preempt_maxPrio : (k.preempt p x).maxPrio = k.maxPrio := rfl

@[simp] theorem preempt_curNodeInGroup (q : Prio) :
    (k.preempt p x).curNodeInGroup q = if q = p then some x else k.curNodeInGroup q :=
  setCursor_curNodeInGroup ..

@[simp] theorem preempt_higherPriorityThread :
    (k.preempt p x).higherPriorityThread = k.higherPriorityThread := rfl

@[simp] theorem preempt_val : (k.preempt p x).val = k.val := rfl

@[simp] theorem preempt_thr : (k.preempt p x).thr = k.thr := rfl

end Simp

/-- A thread of higher priority than the current one has been linked. -/
def Pending (k : Kernel) : Prop := ((k.thr k.curThread).priority : ℤ) < k.maxPrio

/-- The next tick is the last one of the time slice of the current thread. -/
def Expiring (k : Kernel) : Prop :=
  (k.thr k.curThread).totalTicks ≤ word ((k.thr k.curThread).execTicks + 1)

instance (k : Kernel) : Decidable k.Pending := inferInstanceAs (Decidable (_ < _))

instance (k : Kernel) : Decidable k.Expiring := inferInstanceAs (Decidable (_ ≤ _))

/-- The ticks of the current thread, at the next tick. -/
def nextTicks (k : Kernel) : ℕ := word ((k.thr k.curThread).execTicks + 1)

/-- What the interrupt does before it returns: if a thread of higher priority is pending, this one
    is dispatched, the running one keeping what is left of its slice; if the slice has expired, the
    next thread is, which may be the running one. -/
theorem scheduleInInterrupt_eq (k : Kernel) :
    k.scheduleInInterrupt =
      if k.Pending then do
        let q ← group k.maxPrio
        let high ← k.higherPriorityThread
        some ((k.charge (if k.Expiring then 0 else k.nextTicks)).preempt q high, true)
      else if k.Expiring then do
        let (k', nextThread) ← (k.charge 0).findNextThread
        if nextThread = k'.curThread then some (k', false)
        else some (k'.dispatch nextThread, true)
      else some (k.charge k.nextTicks, false) := by
  -- The tests are made after the tick has been charged to the running thread.
  have hcharge : k.modThread k.curThread (fun t => { t with execTicks := word (t.execTicks + 1) }) =
      k.charge k.nextTicks := rfl
  have hpend : (k.charge k.nextTicks).maxPrio >
      ((k.charge k.nextTicks).thr (k.charge k.nextTicks).curThread).priority ↔ k.Pending := by
    simp [Pending]
  have hexp : ((k.charge k.nextTicks).thr (k.charge k.nextTicks).curThread).execTicks ≥
      ((k.charge k.nextTicks).thr (k.charge k.nextTicks).curThread).totalTicks ↔ k.Expiring := by
    simp [Expiring, nextTicks]
  have hreset : (k.charge k.nextTicks).modThread (k.charge k.nextTicks).curThread
      (fun t => { t with execTicks := 0 }) = k.charge 0 := charge_charge ..
  simp only [scheduleInInterrupt, hcharge, hpend, hexp]
  split_ifs with h₁ h₂ h₃
  · rw [← hreset]
    cases hh : k.higherPriorityThread <;> simp [hh, switchContext, preempt, setCursor]
    rfl
  · cases hh : k.higherPriorityThread <;> simp [hh, switchContext, preempt, setCursor]
  · rw [hreset]
    rfl
  · rfl

/-- The rings do not change when a slice is charged. -/
theorem Shape.charge (hs : Shape k R) (n : ℕ) : Shape (k.charge n) R :=
  hs.modThread k.curThread fun _ => rfl

/-- Nor when a thread is dispatched. -/
theorem Shape.dispatch (hs : Shape k R) (x : Node) : Shape (k.dispatch x) R :=
  ((hs.setState k.curThread .ready).setState x .running).congr rfl rfl fun _ => rfl

/-- Nor when a thread of their ring is made the next one. -/
theorem Shape.preempt (hs : Shape k R) (hx : x ∈ R (.ready p)) : Shape (k.preempt p x) R :=
  (hs.setCursor hx).congr rfl rfl fun _ => rfl

/-- What a tick does. -/
theorem Shape.scheduleInInterrupt (hs : Shape k R) (hp : k.maxPrio = (p : ℕ))
    (hhigh : k.Pending → ∃ x ∈ R (.ready p), k.higherPriorityThread = some x) :
    ∃ n,
      (k.Pending ∧ ∃ x ∈ R (.ready p), k.higherPriorityThread = some x ∧
        k.scheduleInInterrupt = some ((k.charge n).preempt p x, true)) ∨
      (¬k.Pending ∧ ¬k.Expiring ∧ k.scheduleInInterrupt = some (k.charge n, false)) ∨
      (¬k.Pending ∧ k.Expiring ∧ ∃ x ∈ R (.ready p), k.Found R p x ∧
        k.scheduleInInterrupt = if x = k.curThread then some ((k.charge n).setCursor p x, false)
          else some (((k.charge n).setCursor p x).dispatch x, true)) := by
  by_cases hpend : k.Pending
  · obtain ⟨x, hx, hhigh⟩ := hhigh hpend
    refine ⟨if k.Expiring then 0 else k.nextTicks, .inl ⟨hpend, x, hx, hhigh, ?_⟩⟩
    rw [scheduleInInterrupt_eq, if_pos hpend, hp, group_coe, hhigh]
    rfl
  by_cases hexp : k.Expiring
  · obtain ⟨x, hx, hfind, hfound⟩ := (hs.charge 0).findNextThread hp
    refine ⟨0, .inr (.inr ⟨hpend, hexp, x, hx, ?_, ?_⟩)⟩
    · simpa only [Found, charge_state, charge_curNodeInGroup] using hfound
    · rw [scheduleInInterrupt_eq, if_neg hpend, if_pos hexp, hfind]
      rfl
  · refine ⟨k.nextTicks, .inr (.inl ⟨hpend, hexp, ?_⟩)⟩
    rw [scheduleInInterrupt_eq, if_neg hpend, if_neg hexp]

/-! ## Suspensions -/

/-- A thread in its ready ring leaves it. -/
theorem Shape.suspend (hs : Shape k R) (ht : .thread t ∈ R (.ready p)) :
    ∃ L' R' n,
      k.suspend (.thread t) =
        some (({ k with links := L' }.setCursor p n).setState (.thread t) .waiting) ∧
      Shape (({ k with links := L' }.setCursor p n).setState (.thread t) .waiting) R' ∧
      (k.links.next (.thread t) = some n ∧ n ∈ R' (.ready p)) ∧
      ∀ j y, y ∈ R' j ↔ y ∈ R j ∧ y ≠ .thread t := by
  obtain ⟨L', R', n, hrem, hs', hn, hmem⟩ := hs.remove ht
  refine ⟨L', R', n, ?_, hs'.setState _ _, hn, hmem⟩
  rw [Kernel.suspend, hrem]
  rfl

/-- Suspending a thread in no list follows a null pointer. -/
theorem suspend_of_prev_eq_none (h : k.links.prev x = none) : k.suspend x = none := by
  simp [Kernel.suspend, Kernel.remove, Links.erase, h]

/-! ## Wake-ups -/

/-- A thread that does not wait is not woken up. -/
theorem wakeup_of_not_waiting (hx : (k.thr x).state ≠ .waiting) (y : Node) :
    k.wakeup x y = some k := if_neg hx

/-- A waiting thread in no list wakes up itself. -/
theorem Shape.wakeup_self (hs : Shape k R) (hwait : (k.thr (.thread t)).state = .waiting)
    (hfree : ∀ h, .thread t ∉ R h) :
    ∃ L' R',
      k.wakeup (.thread t) (.thread t) =
        some ({ k.setState (.thread t) .ready with links := L' }.raise (.thread t)) ∧
      Shape ({ k.setState (.thread t) .ready with links := L' }.raise (.thread t)) R' ∧
      (∀ j, j ≠ .ready (k.thr (.thread t)).priority → R' j = R j) ∧
      ∀ j y, y ∈ R' j ↔ y ∈ R j ∨ j = .ready (k.thr (.thread t)).priority ∧ y = .thread t := by
  obtain ⟨L', R', happ, hs', hother, hmem⟩ := (hs.setState (.thread t) .ready).enqueue
    (.inr rfl) (by simp) hfree
  rw [setState_priority] at hother hmem
  exact ⟨L', R', (if_pos hwait).trans happ, hs', hother, hmem⟩

/-- A waiting thread wakes up another one, which then is in no other list than before. -/
theorem wakeup_of_ne (hwait : (k.thr (.thread t)).state = .waiting) (hne : t ≠ u) :
    k.wakeup (.thread t) (.thread u) = some (k.setState (.thread u) .ready) := by
  rw [wakeup, if_pos hwait]
  exact enqueue_of_not_ready (by simp [hne, hwait])

end Kernel

end DemoOs
