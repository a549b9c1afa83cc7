import DemoOs.System
import DemoOs.Task.Boot

/-!
# What the scheduler dispatches

`remove` leaves `_maxPrio` and `_higherPriorityThread` as they are, and moves the cursor of a ready
ring to the node after the thread removed, be it the header. Hence a tick may switch to a thread
that has been suspended since it was linked, or to the "thread" around the header of a ring.

It switches to a ready thread of the highest priority in every run in which a thread is only linked
when it is in no list, and is not suspended (or blocked) while it is the pending one, or the last
one to be found at the highest priority (`DispatchOk`).
-/

namespace DemoOs

namespace Kernel

variable {k k' : Kernel} {R : Hdr → Cycle Node} {t u c : Tid} {p q : Prio} {σ : ℕ}

/-! ## Which calls are safe -/

/-- Once `t` has left its ready ring, there is a thread to find there: the node after `t` is a
    thread, or another thread is ready. -/
def HasSuccessor (k : Kernel) (t : Tid) : Prop :=
  (∃ u, k.links.next (.thread t) = some (.thread u)) ∨
    ∃ u, u ≠ t ∧ k.OnList (.ready (k.thr (.thread t)).priority) u ∧
      (k.thr (.thread u)).state = .ready

/-- The thread `t` may leave its ready ring: it is not pending, nor the last one of its ring that
    could be found by the next tick. -/
def MayLeave (k : Kernel) (t : Tid) : Prop :=
  (k.Pending → k.higherPriorityThread ≠ some (.thread t)) ∧
    (¬k.Pending → ((k.thr (.thread t)).priority : ℤ) = k.maxPrio → k.HasSuccessor t)

/-- The calls after which ticks still dispatch what they should. -/
def DispatchOk (k : Kernel) : Op → Prop
  | .create => ∃ t, k.OnList .free t
  | .addThread _ _ => True
  | .append t | .push t =>
    t < inherentThreadNum ∧ ((k.thr (.thread t)).state = .ready → k.Unlinked t)
  | .suspend t => k.OnlyReady t ∧ k.MayLeave t
  | .wakeup t u =>
    t < inherentThreadNum ∧ (t = u → (k.thr (.thread t)).state = .waiting → k.Unlinked t)
  | .tick => True
  | .lock σ => k.Blocks σ →
    k.Pending ∨ k.Expiring ∧ ∀ c, k.curThread = .thread c → k.HasSuccessor c
  | .trylock _ | .unlock _ => True
  | .destroy _ | .remove _ | .scheduleInKernel => False

/-! ## The invariant -/

/-- A thread linked in the ready ring of the highest priority `q` will be found, or is pending. -/
structure Core (k : Kernel) (R : Hdr → Cycle Node) (c : Tid) (q : Prio) : Prop where
  shape : Shape k R
  pool : ∀ ⦃h⦄ ⦃t : Tid⦄, .thread t ∈ R h → t < inherentThreadNum
  active : ∀ ⦃t p⦄, .thread t ∈ R (.ready p) →
    (k.thr (.thread t)).state = .ready ∨ (k.thr (.thread t)).state = .running
  curThread : k.curThread = .thread c
  maxPrio : k.maxPrio = (q : ℕ)
  cur_le : (k.thr (.thread c)).priority ≤ q
  le_maxPrio : ∀ ⦃t p⦄, .thread t ∈ R (.ready p) → p ≤ q
  pending : (k.thr (.thread c)).priority < q → ∃ t,
    k.higherPriorityThread = some (.thread t) ∧ .thread t ∈ R (.ready q) ∧
      (k.thr (.thread t)).state = .ready
  found : (k.thr (.thread c)).priority = q → (∃ t, k.curNodeInGroup q = some (.thread t)) ∨
    ∃ t, .thread t ∈ R (.ready q) ∧ (k.thr (.thread t)).state = .ready

/-- The invariant: moreover, the current thread is in no list other than a ready ring. -/
structure Sched (k : Kernel) (R : Hdr → Cycle Node) (c : Tid) (q : Prio) : Prop
    extends Core k R c q where
  cur : ∀ h, .thread c ∈ R h → ∃ p, h = .ready p

theorem Core.pending_iff (h : Core k R c q) : k.Pending ↔ (k.thr (.thread c)).priority < q := by
  rw [Pending, h.curThread, h.maxPrio, Fin.lt_def]
  omega

/-- There is a thread to find at the highest priority. -/
theorem Core.selectable (h : Core k R c q) : k.Selectable q := by
  rcases h.cur_le.lt_or_eq with hlt | heq
  · obtain ⟨t, -, ht, hready⟩ := h.pending hlt
    exact .inr ⟨t, h.shape.onList_iff.2 ht, hready⟩
  · exact (h.found heq).imp_right fun ⟨t, ht, hready⟩ => ⟨t, h.shape.onList_iff.2 ht, hready⟩

theorem Booted.sched (h : Booted k R c) : ∃ q, Sched k R c q := by
  obtain ⟨q, t, hq, hle, hhigh, ht⟩ := h.higher
  refine ⟨q, ⟨h.shape, h.pool, fun u p hu => ?_, h.curThread, hq, hle h.linked, hle, fun hlt => ?_,
    fun heq => .inl ⟨c, heq ▸ h.cursor⟩⟩, fun h' hc => ⟨_, h.shape.rings.disjoint hc h.linked⟩⟩
  · by_cases huc : u = c
    · exact .inr (huc ▸ h.running)
    · exact .inl (h.ready hu huc)
  · refine ⟨t, hhigh, ht, h.ready ht ?_⟩
    rintro rfl
    rw [h.shape.prio ht] at hlt
    exact lt_irrefl _ hlt

/-! ## Its preservation -/

/-- What is not linked in a ready ring may change. -/
theorem Core.congr {R' : Hdr → Cycle Node} (h : Core k R c q) (hs : Shape k' R')
    (hpool : ∀ ⦃h⦄ ⦃t : Tid⦄, .thread t ∈ R' h → t < inherentThreadNum)
    (hmem : ∀ t p, .thread t ∈ R' (.ready p) ↔ .thread t ∈ R (.ready p))
    (hcur : k'.curThread = k.curThread) (hmax : k'.maxPrio = k.maxPrio)
    (hhigh : k'.higherPriorityThread = k.higherPriorityThread)
    (hcursor : k'.curNodeInGroup = k.curNodeInGroup)
    (hprio : (k'.thr (.thread c)).priority = (k.thr (.thread c)).priority)
    (hstate : ∀ t p, .thread t ∈ R (.ready p) →
      (k'.thr (.thread t)).state = (k.thr (.thread t)).state ∨
        (k'.thr (.thread t)).state = .ready) : Core k' R' c q where
  shape := hs
  pool := hpool
  active t p ht := by
    have ht := (hmem t p).1 ht
    rcases hstate t p ht with hst | hst
    · exact hst ▸ h.active ht
    · exact .inl hst
  curThread := hcur.trans h.curThread
  maxPrio := hmax.trans h.maxPrio
  cur_le := hprio ▸ h.cur_le
  le_maxPrio t p ht := h.le_maxPrio ((hmem t p).1 ht)
  pending hlt := by
    obtain ⟨t, hht, ht, hready⟩ := h.pending (hprio ▸ hlt)
    refine ⟨t, hhigh.trans hht, (hmem t q).2 ht, ?_⟩
    rcases hstate t q ht with hst | hst
    exacts [hst.trans hready, hst]
  found heq := by
    -- The cursor finds a ready thread, or it is a thread itself.
    rcases h.found (hprio ▸ heq) with ⟨t, ht⟩ | ⟨t, ht, hready⟩
    · exact .inl ⟨t, by rw [hcursor, ht]⟩
    · refine .inr ⟨t, (hmem t q).2 ht, ?_⟩
      rcases hstate t q ht with hst | hst
      exacts [hst.trans hready, hst]

theorem Sched.sameSched (h : Sched k R c q) (hsame : SameSched k' k) : Sched k' R c q where
  toCore := h.toCore.congr (hsame.shape h.shape) h.pool (fun _ _ => .rfl) hsame.curThread
    hsame.maxPrio hsame.higherPriorityThread hsame.curNodeInGroup (hsame.priority _)
    fun _ _ _ => .inl (hsame.state _)
  cur := h.cur

theorem Sched.setReady (h : Sched k R c q) (x : Node) : Sched (k.setState x .ready) R c q where
  toCore := h.toCore.congr (h.shape.setState _ _) h.pool (fun _ _ => .rfl) rfl rfl rfl rfl
    (setState_priority ..) fun t _ _ => by
      rw [setState_state]
      split_ifs
      exacts [.inr rfl, .inl rfl]
  cur := h.cur

theorem Sched.setVal (h : Sched k R c q) (v : ℕ → ℤ) : Sched { k with val := v } R c q where
  toCore := h.toCore.congr (h.shape.congr rfl rfl fun _ => rfl) h.pool (fun _ _ => .rfl) rfl rfl rfl
    rfl rfl fun _ _ _ => .inl rfl
  cur := h.cur

theorem Sched.create (h : Sched k R c q) (ht : .thread t ∈ R .free) :
    ∃ k' x R', k.createThread = some (k', x) ∧ Sched k' R' c q := by
  obtain ⟨u, L', R', hu, hcreate, hs', hmem⟩ := h.shape.createThread ht
  have hne : ∀ ⦃t p⦄, .thread t ∈ R (.ready p) → t ≠ u := by
    rintro t p ht rfl
    exact absurd (h.shape.rings.disjoint ht hu) (by simp)
  refine ⟨_, _, R', hcreate, ⟨h.toCore.congr hs' (fun j t ht => h.pool ((hmem _ _).1 ht).1)
    (fun t p => ?_) rfl rfl rfl rfl (used_priority ..) fun t p ht => ?_, fun j hc => ?_⟩⟩
  · rw [hmem]
    exact ⟨And.left, fun ht => ⟨ht, by simpa using hne ht⟩⟩
  · left
    simp [hne ht]
  · exact h.cur j ((hmem _ _).1 hc).1

/-- A thread in no list is linked. It is pending if its priority is the highest so far. -/
theorem Sched.enqueue {insert : Links Node → Node → Node → Option (Links Node)}
    (h : Sched k R c q) (hins : Insertion insert) (hpool : t < inherentThreadNum)
    (hfree : (k.thr (.thread t)).state = .ready → ∀ h, .thread t ∉ R h) :
    ∃ k' R' q', Kernel.enqueue insert k (.thread t) = some k' ∧ Sched k' R' c q' := by
  by_cases hready : (k.thr (.thread t)).state = .ready
  swap
  · exact ⟨k, R, q, enqueue_of_not_ready hready, h⟩
  obtain ⟨L', R', henq, hs', -, hmem⟩ := h.shape.enqueue hins hready (hfree hready)
  have hold : ∀ {j u}, .thread u ∈ R j → .thread u ∈ R' j := fun hu => (hmem _ _).2 (.inl hu)
  have hnew : .thread t ∈ R' (.ready (k.thr (.thread t)).priority) :=
    (hmem _ _).2 (.inr ⟨rfl, rfl⟩)
  have hmem : ∀ {j u}, .thread u ∈ R' j →
      .thread u ∈ R j ∨ j = .ready (k.thr (.thread t)).priority ∧ u = t := by
    intro j u hu
    simpa using (hmem _ _).1 hu
  have hpool' : ∀ ⦃j⦄ ⦃u : Tid⦄, .thread u ∈ R' j → u < inherentThreadNum := by
    intro j u hu
    rcases hmem hu with hu | ⟨-, rfl⟩
    exacts [h.pool hu, hpool]
  have hactive : ∀ ⦃u r⦄, .thread u ∈ R' (.ready r) →
      (k.thr (.thread u)).state = .ready ∨ (k.thr (.thread u)).state = .running := by
    intro u r hu
    rcases hmem hu with hu | ⟨-, rfl⟩
    exacts [h.active hu, .inl hready]
  have hcur : ∀ j, .thread c ∈ R' j → ∃ p, j = .ready p := by
    intro j hc
    rcases hmem hc with hc | ⟨rfl, -⟩
    exacts [h.cur j hc, ⟨_, rfl⟩]
  -- Above the highest priority so far, the thread is the one pending.
  by_cases hqp : q < (k.thr (.thread t)).priority
  · rw [raise_of_lt (by rw [h.maxPrio]; exact_mod_cast hqp)] at henq hs'
    refine ⟨_, R', _, henq, ⟨⟨hs', hpool', hactive, h.curThread, rfl, h.cur_le.trans hqp.le,
      fun u r hu => ?_, fun _ => ⟨t, rfl, hnew, hready⟩, fun heq => ?_⟩, hcur⟩⟩
    · rcases hmem hu with hu | ⟨hr, -⟩
      · exact (h.le_maxPrio hu).trans hqp.le
      · exact (Hdr.ready.inj hr).le
    · exact absurd (heq ▸ h.cur_le) (not_le.2 hqp)
  · rw [raise_of_le (by rw [h.maxPrio]; exact_mod_cast not_lt.1 hqp)] at henq hs'
    refine ⟨_, R', q, henq, ⟨⟨hs', hpool', hactive, h.curThread, h.maxPrio, h.cur_le,
      fun u r hu => ?_, fun hlt => ?_, fun heq => ?_⟩, hcur⟩⟩
    · rcases hmem hu with hu | ⟨hr, -⟩
      · exact h.le_maxPrio hu
      · exact Hdr.ready.inj hr ▸ not_lt.1 hqp
    · obtain ⟨u, hhigh, hu, hst⟩ := h.pending hlt
      exact ⟨u, hhigh, hold hu, hst⟩
    · exact (h.found heq).imp_right fun ⟨u, hu, hst⟩ => ⟨u, hold hu, hst⟩

theorem Sched.wakeup (h : Sched k R c q) (hpool : t < inherentThreadNum)
    (hfree : t = u → (k.thr (.thread t)).state = .waiting → ∀ h, .thread t ∉ R h) :
    ∃ k' R' q', k.wakeup (.thread t) (.thread u) = some k' ∧ Sched k' R' c q' := by
  by_cases hwait : (k.thr (.thread t)).state = .waiting
  · -- When `t` wakes up another thread, it is not ready itself, and is not linked.
    have hfree' : ((k.setState (.thread u) .ready).thr (.thread t)).state = .ready →
        ∀ h, .thread t ∉ R h := by
      intro hready
      rw [setState_state, hwait] at hready
      split_ifs at hready with htu
      exact hfree (Node.thread.inj htu) hwait
    obtain ⟨k', R', q', henq, hk'⟩ := (h.setReady (.thread u)).enqueue (.inr rfl) hpool hfree'
    exact ⟨k', R', q', (if_pos hwait).trans henq, hk'⟩
  · exact ⟨k, R, q, wakeup_of_not_waiting hwait _, h⟩

/-- A thread leaves its ready ring, for good or for a waiter list. -/
theorem Core.leave {R' : Hdr → Cycle Node} {n : Node} (h : Core k R c q)
    (ht : .thread t ∈ R (.ready p)) (hleave : k.MayLeave t) (hs' : Shape k' R')
    (hn : k.links.next (.thread t) = some n)
    (hmem : ∀ u r, .thread u ∈ R' (.ready r) ↔ .thread u ∈ R (.ready r) ∧ u ≠ t)
    (hpool : ∀ ⦃h⦄ ⦃t : Tid⦄, .thread t ∈ R' h → t < inherentThreadNum)
    (hcur : k'.curThread = k.curThread) (hmax : k'.maxPrio = k.maxPrio)
    (hhigh : k'.higherPriorityThread = k.higherPriorityThread)
    (hcursor : k'.curNodeInGroup = (k.setCursor p n).curNodeInGroup)
    (hprio : (k'.thr (.thread c)).priority = (k.thr (.thread c)).priority)
    (hstate : ∀ u, u ≠ t → (k'.thr (.thread u)).state = (k.thr (.thread u)).state) :
    Core k' R' c q where
  shape := hs'
  pool := hpool
  active u r hu := by
    obtain ⟨hu, hut⟩ := (hmem u r).1 hu
    rw [hstate u hut]
    exact h.active hu
  curThread := hcur.trans h.curThread
  maxPrio := hmax.trans h.maxPrio
  cur_le := hprio ▸ h.cur_le
  le_maxPrio u r hu := h.le_maxPrio ((hmem u r).1 hu).1
  pending hlt := by
    rw [hprio] at hlt
    obtain ⟨u, hu, hmemu, hready⟩ := h.pending hlt
    have hut : u ≠ t := by
      rintro rfl
      exact hleave.1 (h.pending_iff.2 hlt) hu
    exact ⟨u, hhigh.trans hu, (hmem u q).2 ⟨hmemu, hut⟩, (hstate u hut).trans hready⟩
  found heq := by
    rw [hprio] at heq
    have hpend : ¬k.Pending := by
      rw [h.pending_iff, heq]
      exact lt_irrefl q
    -- If the ring is the one of the highest priority, the cursor goes on to the next node.
    rw [hcursor]
    by_cases hpq : p = q
    · subst hpq
      rcases hleave.2 hpend (by rw [h.maxPrio, h.shape.prio ht]) with ⟨u, hu⟩ | ⟨u, hut, hu, hready⟩
      · exact .inl ⟨u, by rw [setCursor_curNodeInGroup, if_pos rfl, ← hn, hu]⟩
      · rw [h.shape.prio ht, h.shape.onList_iff] at hu
        exact .inr ⟨u, (hmem u p).2 ⟨hu, hut⟩, (hstate u hut).trans hready⟩
    · rcases h.found heq with ⟨u, hu⟩ | ⟨u, hu, hready⟩
      · exact .inl ⟨u, by rw [setCursor_curNodeInGroup, if_neg (Ne.symm hpq), hu]⟩
      · have hut : u ≠ t := by
          rintro rfl
          exact hpq (Hdr.ready.inj (h.shape.rings.disjoint ht hu))
        exact .inr ⟨u, (hmem u q).2 ⟨hu, hut⟩, (hstate u hut).trans hready⟩

theorem Sched.suspend (h : Sched k R c q) (ht : .thread t ∈ R (.ready p)) (hleave : k.MayLeave t) :
    ∃ k' R', k.suspend (.thread t) = some k' ∧ Sched k' R' c q := by
  obtain ⟨L', R', n, hsusp, hs', hn, hmem⟩ := h.shape.suspend ht
  refine ⟨_, R', hsusp, ⟨h.toCore.leave ht hleave hs' hn.1 (fun u r => by rw [hmem]; simp)
    (fun j u hu => h.pool ((hmem _ _).1 hu).1) rfl rfl rfl rfl (setState_priority ..)
    fun u hut => ?_, fun j hc => h.cur j ((hmem _ _).1 hc).1⟩⟩
  rw [setState_state, if_neg (by simpa using hut)]
  rfl

/-- A tick has switched to the thread `c`: it was pending, or the time slice was over. -/
def SwitchedTo (k k' : Kernel) (c : Tid) : Prop :=
  k'.higherPriorityThread = some (.thread c) ∧
    (k.Pending ∧ (k'.thr (.thread c)).state = .ready ∨
      ¬k.Pending ∧ k.Expiring ∧ (k'.thr (.thread c)).state = .running)

theorem Core.charge (h : Core k R c q) (n : ℕ) : Core (k.charge n) R c q :=
  h.congr (h.shape.charge n) h.pool (fun _ _ => .rfl) rfl rfl rfl rfl (charge_priority ..)
    fun _ _ _ => .inl (charge_state ..)

/-- The thread `t` of the highest priority becomes the current one. -/
theorem Core.preempt (h : Core k R c q) (ht : .thread t ∈ R (.ready q)) :
    Core (k.preempt q (.thread t)) R t q where
  shape := h.shape.preempt ht
  pool := h.pool
  active := h.active
  curThread := rfl
  maxPrio := h.maxPrio
  cur_le := (h.shape.prio ht).le
  le_maxPrio := h.le_maxPrio
  pending hlt := absurd (h.shape.prio ht) hlt.ne
  found _ := .inl ⟨t, by simp⟩

/-- The cursor moves to a thread of the ring. -/
theorem Core.setCursor (h : Core k R c q) (ht : .thread t ∈ R (.ready q)) :
    Core (k.setCursor q (.thread t)) R c q where
  shape := h.shape.setCursor ht
  pool := h.pool
  active := h.active
  curThread := h.curThread
  maxPrio := h.maxPrio
  cur_le := h.cur_le
  le_maxPrio := h.le_maxPrio
  pending := h.pending
  found _ := .inl ⟨t, by simp⟩

/-- The thread at the cursor becomes the current one, and is running. -/
theorem Core.dispatch (h : Core k R c q) (ht : .thread t ∈ R (.ready q))
    (hcursor : k.curNodeInGroup q = some (.thread t)) : Core (k.dispatch (.thread t)) R t q where
  shape := h.shape.dispatch _
  pool := h.pool
  active u r hu := by
    rw [dispatch_state]
    split_ifs
    exacts [.inr rfl, .inl rfl, h.active hu]
  curThread := rfl
  maxPrio := h.maxPrio
  cur_le := by rw [dispatch_priority, h.shape.prio ht]
  le_maxPrio := h.le_maxPrio
  pending hlt := absurd (h.shape.prio ht) (by rw [dispatch_priority] at hlt; exact hlt.ne)
  found _ := .inl ⟨t, hcursor⟩

/-- A tick keeps the current thread, or switches to another one of the highest priority. -/
theorem Core.tick (h : Core k R c q) :
    ∃ k' b c', k.scheduleInInterrupt = some (k', b) ∧ Core k' R c' q ∧ k'.val = k.val ∧
      ((b = false ∧ c' = c ∧ ¬k.Pending ∧ (k.Expiring → .thread c ∈ R (.ready q))) ∨
        (b = true ∧ c' ≠ c ∧ .thread c' ∈ R (.ready q) ∧ k.SwitchedTo k' c')) := by
  have hhigh : k.Pending → ∃ x ∈ R (.ready q), k.higherPriorityThread = some x := by
    intro hpend
    obtain ⟨t, hht, ht, -⟩ := h.pending (h.pending_iff.1 hpend)
    exact ⟨_, ht, hht⟩
  obtain ⟨n, hcases⟩ := h.shape.scheduleInInterrupt h.maxPrio hhigh
  rcases hcases with ⟨hpend, x, hx, hhx, htick⟩ | ⟨hpend, hexp, htick⟩ |
    ⟨hpend, hexp, x, hx, hfound, htick⟩
  · obtain ⟨t, hht, ht, hready⟩ := h.pending (h.pending_iff.1 hpend)
    obtain rfl : x = .thread t := Option.some.inj (hhx.symm.trans hht)
    refine ⟨_, true, t, htick, (h.charge n).preempt ht, rfl, .inr ⟨rfl, ?_, ht, hht, .inl
      ⟨hpend, (charge_state ..).trans hready⟩⟩⟩
    rintro rfl
    exact absurd (h.shape.prio ht) (h.pending_iff.1 hpend).ne
  · exact ⟨_, false, c, htick, h.charge n, rfl,
      .inl ⟨rfl, rfl, hpend, fun hexp' => absurd hexp' hexp⟩⟩
  · obtain ⟨t, rfl⟩ := hfound.exists_thread h.shape h.selectable
    rw [h.curThread] at htick
    split_ifs at htick with htc
    · obtain rfl := Node.thread.inj htc
      exact ⟨_, false, t, htick, (h.charge n).setCursor hx, rfl,
        .inl ⟨rfl, rfl, hpend, fun _ => hx⟩⟩
    · refine ⟨_, true, t, htick, ((h.charge n).setCursor hx).dispatch hx (by simp), rfl,
        .inr ⟨rfl, fun h' => htc (by rw [h']), hx, rfl, .inr ⟨hpend, hexp, by simp⟩⟩⟩

theorem Sched.tick (h : Sched k R c q) :
    ∃ k' b c', k.scheduleInInterrupt = some (k', b) ∧ Sched k' R c' q := by
  obtain ⟨k', b, c', htick, hcore, -, ⟨-, rfl, -⟩ | ⟨-, -, hc', -⟩⟩ := h.toCore.tick
  · exact ⟨k', b, c', htick, hcore, h.cur⟩
  · exact ⟨k', b, c', htick, hcore, fun j hc => ⟨q, h.shape.rings.disjoint hc hc'⟩⟩

/-- The current thread blocks on a semaphore. The scheduler switches to another thread if there is a
    pending one, or the time slice is over. -/
theorem Sched.lock (h : Sched k R c q) (hc : .thread c ∈ R (.ready p)) (hblocks : k.Blocks σ)
    (hsucc : ¬k.Pending → k.HasSuccessor c) :
    ∃ k' b R' c', k.lock σ = some (k', true, b) ∧ Core k' R' c' q ∧
      k'.val = (k.decVal σ).val ∧ .thread c ∈ R' (.waiters σ) ∧
      (b = true ↔ k.Pending ∨ k.Expiring) ∧ (b = true → c' ≠ c ∧ Sched k' R' c' q) := by
  obtain ⟨L', R', n, hlock, hs', hn, hmem⟩ := h.shape.lockSection h.curThread hc hblocks
  -- A thread that leaves must not be the pending one, nor the last of its priority.
  have hleave : k.MayLeave c := by
    refine ⟨fun hpend hhigh => ?_, fun hpend _ => hsucc hpend⟩
    obtain ⟨t, hht, ht, -⟩ := h.pending (h.pending_iff.1 hpend)
    obtain rfl : t = c := Node.thread.inj (Option.some.inj (hht.symm.trans hhigh))
    exact absurd (h.shape.prio ht) (h.pending_iff.1 hpend).ne
  have hcore : Core (k.blocked σ c p n L') R' c q := by
    refine h.toCore.leave hc hleave hs' hn.1 (fun u r => ?_) (fun j u hu => ?_) rfl rfl rfl rfl
      (setState_priority ..) fun u hut => ?_
    · rw [hmem]
      simp
    · rcases (hmem _ _).1 hu with ⟨hu, -⟩ | ⟨-, hu⟩
      exacts [h.pool hu, Node.thread.inj hu ▸ h.pool hc]
    · rw [blocked, setState_state, if_neg (by simpa using hut)]
      rfl
  have hcw : .thread c ∈ R' (.waiters σ) := (hmem _ _).2 (.inr ⟨rfl, rfl⟩)
  -- The call ends with a turn of the scheduler, which need not switch away.
  obtain ⟨k', b, c', htick, hk', hval, hb⟩ := hcore.tick
  rw [SwitchedTo, blocked_pending_iff, blocked_expiring_iff] at hb
  refine ⟨k', b, R', c', ?_, hk', hval, hcw, ?_, ?_⟩
  · simp only [Kernel.lock, hlock, htick, Option.bind_eq_bind, Option.bind_some, if_pos]
  · rcases hb with ⟨rfl, -, hpend, hexp⟩ | ⟨rfl, -, -, -, hb⟩
    · simp only [Bool.false_eq_true, false_iff, not_or]
      refine ⟨hpend, fun hexp' => ?_⟩
      exact absurd (hs'.rings.disjoint (hexp hexp') hcw) (by simp)
    · simp only [true_iff]
      exact hb.imp And.left fun hb => hb.2.1
  · rintro rfl
    rcases hb with ⟨hb, -⟩ | ⟨-, hne, hc', -⟩
    · cases hb
    · exact ⟨hne, hk', fun j hj => ⟨q, hs'.rings.disjoint hj hc'⟩⟩

/-- Waking a waiter. -/
theorem Sched.wakeOne (h : Sched k R c q) (ht : .thread t ∈ R (.waiters σ)) :
    ∃ k' R' q', k.wakeOne σ (.thread t) = some k' ∧ Sched k' R' c q' := by
  obtain ⟨L', R', hL', hs', hmem⟩ := h.shape.unlink ht (by simp)
  have hsched : Sched { k.incVal σ with links := L' } R' c q := by
    refine ⟨h.toCore.congr (hs'.congr rfl rfl fun _ => rfl)
      (fun j u hu => h.pool ((hmem _ _).1 hu).1)
      (fun u r => ?_) rfl rfl rfl rfl rfl fun _ _ _ => .inl rfl,
      fun j hc => h.cur j ((hmem _ _).1 hc).1⟩
    rw [hmem]
    refine ⟨And.left, fun hu => ⟨hu, ?_⟩⟩
    rintro hut
    exact absurd (h.shape.rings.disjoint (hut ▸ hu) ht) (by simp)
  obtain ⟨k', R'', q', hwake, hk'⟩ := hsched.wakeup (t := t) (u := t) (h.pool ht) fun _ _ j hj =>
    ((hmem _ _).1 hj).2 rfl
  exact ⟨k', R'', q', by rw [Kernel.wakeOne, hL']; exact hwake, hk'⟩

theorem Sched.unlock (h : Sched k R c q) :
    ∃ k' R' q', k.unlock σ = some k' ∧ Sched k' R' c q' := by
  obtain ⟨k', hk', ⟨R', q', hs'⟩, -⟩ := unlock_rule (I := fun k => ∃ R q, Sched k R c q)
    (fun ⟨R, _, h⟩ => ⟨R, h.shape⟩) (fun {k₁ k₂ t} ⟨R, q, h⟩ ht hwake => by
      obtain ⟨k', R', q', hk', hs'⟩ := h.wakeOne (h.shape.onList_iff.1 ht)
      obtain rfl : k' = k₂ := Option.some.inj (hk'.symm.trans hwake)
      exact ⟨R', q', hs'⟩) ⟨R, q, h.setVal _⟩
  exact ⟨k', R', q', hk', hs'⟩

theorem Sched.step {op : Op} (h : Sched k R c q) (hok : k.DispatchOk op)
    (hstep : k.step op = some k') : ∃ R' c' q', Sched k' R' c' q' := by
  -- The lemma of each call gives the new rings, cursor and pending priority.
  cases op with
  | create =>
    obtain ⟨t, ht⟩ := hok
    obtain ⟨k₁, x, R', hcreate, hk₁⟩ := h.create (h.shape.onList_iff.1 ht)
    rw [Kernel.step, hcreate] at hstep
    exact Option.some.inj hstep ▸ ⟨R', c, q, hk₁⟩
  | addThread pid t =>
    exact ⟨R, c, q, h.sameSched (sameSched_of_addThread hstep)⟩
  | append t =>
    obtain ⟨k₁, R', q', happ, hk₁⟩ := h.enqueue (.inr rfl) hok.1 fun hr =>
      h.shape.unlinked_iff.1 (hok.2 hr)
    exact Option.some.inj (happ.symm.trans hstep) ▸ ⟨R', c, q', hk₁⟩
  | push t =>
    obtain ⟨k₁, R', q', happ, hk₁⟩ := h.enqueue (.inl rfl) hok.1 fun hr =>
      h.shape.unlinked_iff.1 (hok.2 hr)
    exact Option.some.inj (happ.symm.trans hstep) ▸ ⟨R', c, q', hk₁⟩
  | suspend t =>
    obtain ⟨p, ht⟩ := h.shape.mem_ready_of_suspend hok.1
      (by rw [show k.suspend (.thread t) = _ from hstep]; simp)
    obtain ⟨k₁, R', hsusp, hk₁⟩ := h.suspend ht hok.2
    exact Option.some.inj (hsusp.symm.trans hstep) ▸ ⟨R', c, q, hk₁⟩
  | wakeup t u =>
    obtain ⟨k₁, R', q', hwake, hk₁⟩ := h.wakeup hok.1 fun htu hw =>
      h.shape.unlinked_iff.1 (hok.2 htu hw)
    exact Option.some.inj (hwake.symm.trans hstep) ▸ ⟨R', c, q', hk₁⟩
  | tick =>
    obtain ⟨k₁, b, c', htick, hk₁⟩ := h.tick
    rw [Kernel.step, htick] at hstep
    exact Option.some.inj hstep ▸ ⟨R, c', q, hk₁⟩
  | lock σ =>
    -- A lock that finds a permit changes the counter alone.
    by_cases hblocks : k.Blocks σ
    · obtain ⟨p, hc⟩ :=
        h.shape.mem_ready_of_lock h.curThread (h.shape.onlyReady_iff.2 h.cur) hblocks
        fun hnone => by
          rw [Kernel.step, hnone] at hstep
          cases hstep
      have hok := hok hblocks
      obtain ⟨k₁, b, R', c', hlock, -, -, -, hb, hk₁⟩ := h.lock hc hblocks fun hpend =>
        (hok.resolve_left hpend).2 c h.curThread
      rw [Kernel.step, hlock] at hstep
      exact Option.some.inj hstep ▸ ⟨R', c', q, (hk₁ (hb.2 (hok.imp_right And.left))).2⟩
    · rw [Kernel.step, Kernel.lock, lockSection_of_nonneg (not_lt.1 hblocks)] at hstep
      exact Option.some.inj hstep ▸ ⟨R, c, q, h.setVal _⟩
  | trylock σ =>
    obtain ⟨v, hv⟩ := exists_trylock_eq k σ
    rw [Kernel.step, hv] at hstep
    exact Option.some.inj hstep ▸ ⟨R, c, q, h.setVal v⟩
  | unlock σ =>
    obtain ⟨k₁, R', q', hunlock, hk₁⟩ := h.unlock (σ := σ)
    exact Option.some.inj (hunlock.symm.trans hstep) ▸ ⟨R', c, q', hk₁⟩
  | destroy t => exact hok.elim
  | remove t => exact hok.elim
  | scheduleInKernel => exact hok.elim

/-! ## Runs -/

variable {k₀ : Kernel} {prio : Tid → Prio} {mem : Hdr → Thread} {val : ℕ → ℤ}

theorem sched_of_run (hboot : boot prio mem val = some k₀) (hrun : Run step DispatchOk k₀ k) :
    ∃ R c q, Sched k R c q := by
  obtain ⟨R, c, hbooted⟩ := booted_of_boot hboot
  obtain ⟨q, hsched⟩ := hbooted.sched
  exact hrun.invariant (I := fun k => ∃ R c q, Sched k R c q)
    (fun ⟨_, _, _, h⟩ hok hstep => h.step hok hstep) ⟨R, c, q, hsched⟩

/-- The switch from `k` to `k'` is to a thread of the pool, which is ready or has just been marked
    as running, is linked in the ready ring of its priority, and has the highest priority of all
    ready threads linked. -/
def Dispatches (k k' : Kernel) : Prop :=
  ∃ t : Tid, t < inherentThreadNum ∧ k'.curThread = .thread t ∧
    k'.higherPriorityThread = some (.thread t) ∧
    ((k'.thr (.thread t)).state = .ready ∨
      (k'.thr (.thread t)).state = .running ∧ ¬k.Pending ∧ k.Expiring) ∧
    k'.OnList (.ready (k'.thr (.thread t)).priority) t ∧
    ∀ u p, k'.OnList (.ready p) u → (k'.thr (.thread u)).state = .ready →
      p ≤ (k'.thr (.thread t)).priority

/-- In every state of such a run, a tick returns, and switches only to a thread that it should
    dispatch; `findNextThread` finds a thread. -/
theorem dispatches_of_run (hboot : boot prio mem val = some k₀) (hrun : Run step DispatchOk k₀ k) :
    (∃ k' b, k.scheduleInInterrupt = some (k', b) ∧ (b = true → k.Dispatches k')) ∧
      ∃ k' t, k.findNextThread = some (k', .thread t) := by
  obtain ⟨R, c, q, h⟩ := sched_of_run hboot hrun
  constructor
  · obtain ⟨k', b, c', htick, hk', -, hb⟩ := h.toCore.tick
    refine ⟨k', b, htick, ?_⟩
    rintro rfl
    obtain ⟨hb, -⟩ | ⟨-, -, hc', hhigh, hst⟩ := hb
    · cases hb
    · have hprio := hk'.shape.prio hc'
      refine ⟨c', hk'.pool hc', hk'.curThread, hhigh, ?_, ?_, fun u p hu _ => ?_⟩
      · exact hst.imp And.right fun hst => ⟨hst.2.2, hst.1, hst.2.1⟩
      · rw [hprio]
        exact hk'.shape.onList_iff.2 hc'
      · rw [hprio]
        exact hk'.le_maxPrio (hk'.shape.onList_iff.1 hu)
  · obtain ⟨x, -, hfind, hfound⟩ := h.shape.findNextThread h.maxPrio
    obtain ⟨t, rfl⟩ := hfound.exists_thread h.shape h.selectable
    exact ⟨_, t, hfind⟩

/-- The tenth tick switches from the second idle thread to the first one, and the twelfth to a
    thread of priority `5`, which has been created and linked before it. -/
theorem dispatches_first_idle :
    ∃ k₀ k k', boot (fun t => if t = 2 then 5 else 0) noThread (fun _ => 0) = some k₀ ∧
      Run step DispatchOk k₀ k ∧ k.curThread = .thread 0 ∧ k.scheduleInInterrupt = some (k', true) ∧
      k'.curThread = .thread 2 ∧ k.Dispatches k' := by
  -- The kernel is run for eleven ticks, and a thread is made and appended.
  have hticks : ((boot (fun t => if t = 2 then 5 else 0) noThread fun _ => 0).bind fun k₀ =>
      (execute step (fun _ op => op = .tick) k₀ (List.replicate 11 .tick)).bind fun k₁ =>
        k₁.createThread.bind fun r => (r.1.append (.thread 2)).bind fun k =>
          k.scheduleInInterrupt.map fun r' =>
          (decide (k₁.links.next (.hdr .free) = some (.thread 2) ∧
            r.1.links.next (.thread 2) = none), k.curThread, r'.2, r'.1.curThread)) =
            some (true, .thread 0, true, .thread 2) := by
    decide +kernel
  obtain ⟨k₀, hboot, hticks⟩ := Option.bind_eq_some_iff.1 hticks
  obtain ⟨k₁, hk₁, hticks⟩ := Option.bind_eq_some_iff.1 hticks
  obtain ⟨⟨k₂, x⟩, hk₂, hticks⟩ := Option.bind_eq_some_iff.1 hticks
  obtain ⟨k, hk, hticks⟩ := Option.bind_eq_some_iff.1 hticks
  obtain ⟨⟨k', b⟩, hk', heq⟩ := Option.map_eq_some_iff.1 hticks
  simp only [Prod.mk.injEq, decide_eq_true_eq] at heq
  obtain ⟨⟨hfree, hnull⟩, hcur, rfl, hcur'⟩ := heq
  have hrun₁ : Run step DispatchOk k₀ k₁ := by
    refine Run.mono (fun s op hop => ?_) (Run.of_execute hk₁)
    subst hop
    trivial
  have hrun₂ : Run step DispatchOk k₀ k₂ :=
    hrun₁.tail (i := .create) ⟨2, .single hfree⟩ (congrArg (Option.map Prod.fst) hk₂)
  obtain ⟨R, c, q, h⟩ := sched_of_run hboot hrun₂
  have hrun : Run step DispatchOk k₀ k :=
    hrun₂.tail (i := .append 2) ⟨by decide, fun _ => h.shape.unlinked_of_null hnull⟩ hk
  obtain ⟨⟨k'', b, htick, hb⟩, -⟩ := dispatches_of_run hboot hrun
  obtain ⟨rfl, rfl⟩ := Prod.mk.inj (Option.some.inj (hk'.symm.trans htick))
  exact ⟨k₀, k, k', hboot, hrun, hcur, hk', hcur', hb rfl⟩

/-- A thread of priority `5` is linked, runs from the next tick on, and suspends itself. When its
    time slice is over, the header of its ready ring is taken for a thread and switched to, although
    the idle threads are ready. -/
theorem header_dispatched :
    ∃ k₀ k k', boot (fun t => if t = 2 then 5 else 0) noThread (fun _ => 0) = some k₀ ∧
      execute step (fun _ _ => True) k₀
        ([.create, .append 2, .tick, .suspend 2] ++ List.replicate 9 .tick) = some k ∧
      k.scheduleInInterrupt = some (k', true) ∧ k'.curThread = .hdr (.ready 5) ∧
      ¬k.Dispatches k' := by
  have hrun : ((boot (fun t => if t = 2 then 5 else 0) noThread fun _ => 0).bind fun k₀ =>
      (execute step (fun _ _ => True) k₀
        ([.create, .append 2, .tick, .suspend 2] ++ List.replicate 9 .tick)).bind fun k =>
        k.scheduleInInterrupt.map fun x => (x.1.curThread, x.2)) =
          some (.hdr (.ready 5), true) := by
    decide +kernel
  obtain ⟨k₀, hboot, hrun⟩ := Option.bind_eq_some_iff.1 hrun
  obtain ⟨k, hk, htick⟩ := Option.bind_eq_some_iff.1 hrun
  obtain ⟨⟨k', b⟩, hk', hcur⟩ := Option.map_eq_some_iff.1 htick
  obtain ⟨hcur, rfl⟩ := Prod.mk.inj hcur
  refine ⟨k₀, k, k', hboot, hk, hk', hcur, ?_⟩
  rintro ⟨t, -, ht, -⟩
  cases hcur.symm.trans ht

end Kernel

end DemoOs
