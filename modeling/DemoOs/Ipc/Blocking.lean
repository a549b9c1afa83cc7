import DemoOs.Task.Dispatch

/-!
# Blocking on a semaphore

A caller of `Semaphore::lock` without a permit goes to the waiter list and then calls
`scheduleInSemaphore`, that is, takes a tick. The tick switches to another thread only if a thread
of higher priority is pending, or if the time slice of the caller is over. If neither is the case,
the caller goes on although it is on the waiter list: it takes another permit off the value, and is
taken off the waiter list and put on it again as if it were in its ready ring.

In every run in which threads only block when they are switched away from, and are dispatched as
they should be (`DispatchOk`), the current thread is never on a waiter list.
-/

namespace DemoOs

namespace Kernel

variable {k k₀ : Kernel} {R : Hdr → Cycle Node} {c : Tid} {q : Prio} {σ : ℕ} {prio : Tid → Prio}
  {mem : Hdr → Thread} {val : ℕ → ℤ}

/-- The call to `lock` of the thread `c` has made it a waiter, having decremented the value once,
    and has switched to another thread. -/
def SwitchedAway (k k' : Kernel) (σ : ℕ) (c : Tid) : Prop :=
  k'.curThread ≠ .thread c ∧ k'.OnList (.waiters σ) c ∧
    k'.val = Function.update k.val σ (sint (k.val σ - 1))

/-- In every state of such a run, the current thread is on no waiter list, a thread is in at most
    one list, and a caller that blocks is switched away from exactly if a thread is pending or its
    time slice is over. -/
theorem switchedAway_of_run (hboot : boot prio mem val = some k₀)
    (hrun : Run step DispatchOk k₀ k) :
    ∃ c, k.curThread = .thread c ∧ (∀ σ, ¬k.OnList (.waiters σ) c) ∧
      (∀ t h h', k.OnList h t → k.OnList h' t → h = h') ∧
      ∀ σ p, k.Blocks σ → k.OnList (.ready p) c → (¬k.Pending → k.HasSuccessor c) →
        ∃ k' switched, k.lock σ = some (k', true, switched) ∧
          (switched = true ↔ k.Pending ∨ k.Expiring) ∧
          (switched = true → k.SwitchedAway k' σ c) := by
  obtain ⟨R, c, q, h⟩ := sched_of_run hboot hrun
  refine ⟨c, h.curThread, fun σ hc => ?_, fun t j j' hj hj' => ?_, fun σ p hblocks hc hsucc => ?_⟩
  · obtain ⟨p, hp⟩ := h.cur _ (h.shape.onList_iff.1 hc)
    cases hp
  · exact h.shape.rings.disjoint (h.shape.onList_iff.1 hj) (h.shape.onList_iff.1 hj')
  · obtain ⟨k', b, R', c', hlock, hk', hval, hcw, hb, haway⟩ :=
      h.lock (h.shape.onList_iff.1 hc) hblocks hsucc
    refine ⟨k', b, hlock, hb, fun hb => ⟨?_, hk'.shape.onList_iff.2 hcw, hval⟩⟩
    rw [hk'.curThread]
    exact fun h => (haway hb).1 (Node.thread.inj h)

/-- The first idle thread has the higher priority, and is switched to when the second one blocks. -/
theorem switchedAway_from_idle :
    ∃ k₀ k, boot (fun t => if t = 0 then 5 else 0) noThread (fun _ => 0) = some k₀ ∧
      Run step DispatchOk k₀ k ∧ k₀.SwitchedAway k 0 1 ∧
      ∃ c, k.curThread = .thread c ∧ ∀ σ, ¬k.OnList (.waiters σ) c := by
  have hfields : (boot (fun t => if t = 0 then 5 else 0) noThread fun _ => 0).map
      (fun k => (k.curThread, k.val 0, decide k.Pending, (k.thr (.thread 1)).priority)) =
        some (.thread 1, 0, true, 0) := by
    decide +kernel
  obtain ⟨k₀, hboot, hfields⟩ := Option.map_eq_some_iff.1 hfields
  simp only [Prod.mk.injEq, decide_eq_true_eq] at hfields
  obtain ⟨hcur, hval, hpend, hprio⟩ := hfields
  have hblocks : k₀.Blocks 0 := by
    rw [Blocks, hval]
    decide
  obtain ⟨R, c, hb⟩ := booted_of_boot hboot
  obtain ⟨c', hc', -, -, hlock⟩ := switchedAway_of_run hboot .refl
  obtain rfl : c' = 1 := Node.thread.inj (hc'.symm.trans hcur)
  obtain rfl : c = 1 := Node.thread.inj (hb.curThread.symm.trans hcur)
  obtain ⟨k, b, hk, hsw, haway⟩ := hlock 0 _ hblocks (hb.shape.onList_iff.2 hb.linked)
    fun h => absurd hpend h
  have hrun : Run step DispatchOk k₀ k := Run.refl.tail (i := .lock 0) (fun _ => .inl hpend)
    (by rw [step, hk]; rfl)
  obtain ⟨c, hc, hcw, -⟩ := switchedAway_of_run hboot hrun
  exact ⟨k₀, k, hboot, hrun, haway (hsw.2 (.inl hpend)), c, hc, hcw⟩

/-- With both idle threads of one priority, the running one blocks and goes on: the other thread is
    ready, and yet the next turn of the loop takes the caller for a thread in its ready ring. The
    value is decremented twice, and the cursor of the ready ring is at the waiter list. -/
theorem blocked_thread_runs_on :
    ∃ k₀ k₁ k₂, boot (fun _ => 0) noThread (fun _ => 0) = some k₀ ∧
      (k₀.thr (.thread 0)).state = .ready ∧ k₀.lock 0 = some (k₁, true, false) ∧
      k₁.curThread = .thread 1 ∧ k₁.OnList (.waiters 0) 1 ∧
      k₁.lock 0 = some (k₂, true, false) ∧ k₂.val 0 = -2 ∧
      k₂.curNodeInGroup 0 = some (.hdr (.waiters 0)) := by
  have hrun : ((boot (fun _ => 0) noThread fun _ => 0).bind fun k₀ =>
      (k₀.lock 0).bind fun x₁ => (x₁.1.lock 0).map fun x₂ => decide
        ((k₀.thr (.thread 0)).state = .ready ∧ x₁.2 = (true, false) ∧
          x₁.1.curThread = .thread 1 ∧ x₁.1.links.next (.hdr (.waiters 0)) = some (.thread 1) ∧
          x₂.2 = (true, false) ∧ x₂.1.val 0 = -2 ∧
          x₂.1.curNodeInGroup 0 = some (.hdr (.waiters 0)))) = some true := by
    decide +kernel
  obtain ⟨k₀, hboot, hrun⟩ := Option.bind_eq_some_iff.1 hrun
  obtain ⟨⟨k₁, b₁⟩, hk₁, hrun⟩ := Option.bind_eq_some_iff.1 hrun
  obtain ⟨⟨k₂, b₂⟩, hk₂, hfields⟩ := Option.map_eq_some_iff.1 hrun
  obtain ⟨hready, rfl, hcur, hnext, rfl, hval, hcursor⟩ := of_decide_eq_true hfields
  exact ⟨k₀, k₁, k₂, hboot, hready, hk₁, hcur, .single hnext, hk₂, hval, hcursor⟩

end Kernel

end DemoOs
