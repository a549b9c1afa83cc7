import DemoOs.System
import DemoOs.Task.Boot

/-!
# The running thread

When the time slice is over, `scheduleInInterrupt` marks the current thread as ready and the next
one as running before it switches. When a thread of higher priority is pending, it switches without
marking either: the thread switched to is ready, and the one switched away from still running, so
that `findNextThread` will not find it again. `scheduleInKernel` marks the threads, but does not
switch.

Exactly one thread is running, and it is the current one, in every run in which ticks find no
pending thread, and a thread at the end of the time slice (`RunningOk`).
-/

namespace DemoOs

namespace Kernel

variable {k k' : Kernel} {R : Hdr → Cycle Node} {t u c : Tid} {p q : Prio}

/-- `findNextThread` finds the current thread: it is the cursor, and no thread of its ring is
    ready. -/
def KeepsCurrent (k : Kernel) (p : Prio) : Prop :=
  k.curNodeInGroup p = some k.curThread ∧
    ∀ t, k.OnList (.ready p) t → (k.thr (.thread t)).state ≠ .ready

/-- The calls that keep the current thread the only running one. -/
def RunningOk (k : Kernel) : Op → Prop
  | .create => ∃ t, k.OnList .free t
  | .addThread _ _ => True
  | .append t | .push t => (k.thr (.thread t)).state = .ready → k.Unlinked t
  | .suspend t => k.OnlyReady t ∧ k.curThread ≠ .thread t
  | .wakeup t u => (k.thr (.thread t)).state = .waiting → k.curThread ≠ .thread u
  | .tick => ¬k.Pending ∧ (k.Expiring → ∀ p : Prio, k.maxPrio = (p : ℕ) → k.Selectable p)
  | .scheduleInKernel => ∀ p : Prio, k.maxPrio = (p : ℕ) → k.KeepsCurrent p
  | .destroy _ | .remove _ | .lock _ | .trylock _ | .unlock _ => False

/-- The thread `c` is the current one and the only one running; the other threads linked in ready
    rings are ready, and waiting threads are in no list. -/
structure Running (k : Kernel) (R : Hdr → Cycle Node) (c : Tid) : Prop where
  shape : Shape k R
  maxPrio : ∃ q : Prio, k.maxPrio = (q : ℕ)
  curThread : k.curThread = .thread c
  linked : ∃ p, .thread c ∈ R (.ready p)
  running : ∀ t, (k.thr (.thread t)).state = .running ↔ t = c
  ready : ∀ ⦃t p⦄, .thread t ∈ R (.ready p) → t ≠ c → (k.thr (.thread t)).state = .ready
  waiting : ∀ ⦃t⦄, (k.thr (.thread t)).state = .waiting → ∀ h, .thread t ∉ R h

theorem Booted.isRunning (h : Booted k R c) : Running k R c where
  shape := h.shape
  maxPrio := h.higher.imp fun _ h => h.choose_spec.1
  curThread := h.curThread
  linked := ⟨_, h.linked⟩
  running t := by
    refine ⟨fun hrun => ?_, fun htc => htc ▸ h.running⟩
    by_contra htc
    rcases h.state_of_ne htc with hst | hst <;> cases hrun.symm.trans hst
  ready := h.ready
  waiting t hwait := by
    by_cases htc : t = c
    · cases hwait.symm.trans (htc ▸ h.running)
    · rcases h.state_of_ne htc with hst | hst <;> cases hwait.symm.trans hst

/-! ## Its preservation -/

/-- Threads other than the current one may become ready, and may be linked if they are. -/
theorem Running.congr {R' : Hdr → Cycle Node} (h : Running k R c) (hs : Shape k' R')
    (hmax : ∃ q : Prio, k'.maxPrio = (q : ℕ)) (hcur : k'.curThread = .thread c)
    (hlinked : ∃ p, .thread c ∈ R' (.ready p))
    (hstate : ∀ t, (k'.thr (.thread t)).state = (k.thr (.thread t)).state ∨
      t ≠ c ∧ (k'.thr (.thread t)).state = .ready)
    (hmem : ∀ t j, .thread t ∈ R' j →
      .thread t ∈ R j ∨ t ≠ c ∧ (k'.thr (.thread t)).state = .ready) : Running k' R' c where
  shape := hs
  maxPrio := hmax
  curThread := hcur
  linked := hlinked
  running t := by
    rcases hstate t with hst | ⟨htc, hst⟩
    · rw [hst]
      exact h.running t
    · simp [hst, htc]
  ready t p ht htc := by
    rcases hmem t _ ht with ht | ⟨-, hst⟩
    · rcases hstate t with hst | ⟨-, hst⟩
      exacts [hst.trans (h.ready ht htc), hst]
    · exact hst
  waiting t hwait j hj := by
    rcases hmem t j hj with hj | ⟨-, hst⟩
    · rcases hstate t with hst | ⟨-, hst⟩
      · exact h.waiting (hst.symm.trans hwait) j hj
      · cases hwait.symm.trans hst
    · cases hwait.symm.trans hst

theorem Running.sameSched (h : Running k R c) (hsame : SameSched k' k) : Running k' R c :=
  h.congr (hsame.shape h.shape) (hsame.maxPrio ▸ h.maxPrio) (hsame.curThread.trans h.curThread)
    h.linked (fun _ => .inl (hsame.state _)) fun _ _ => .inl

theorem Running.setReady (h : Running k R c) (ht : t ≠ c) :
    Running (k.setState (.thread t) .ready) R c :=
  h.congr (h.shape.setState _ _) h.maxPrio h.curThread h.linked (fun u => by
    rw [setState_state]
    split_ifs with hut
    · exact .inr ⟨by rw [Node.thread.inj hut]; exact ht, rfl⟩
    · exact .inl rfl) fun _ _ => .inl

/-- The current thread is in its ready ring, and no other one. -/
theorem Running.not_mem (h : Running k R c) {j : Hdr} (hj : ∀ p, j ≠ .ready p) :
    .thread c ∉ R j := by
  intro hc
  obtain ⟨p, hp⟩ := h.linked
  exact hj p (h.shape.rings.disjoint hc hp)

theorem Running.create (h : Running k R c) (ht : .thread t ∈ R .free) :
    ∃ k' x R', k.createThread = some (k', x) ∧ Running k' R' c := by
  obtain ⟨u, L', R', hu, hcreate, hs', hmem⟩ := h.shape.createThread ht
  have huc : u ≠ c := by
    rintro rfl
    exact h.not_mem (by simp) hu
  refine ⟨_, _, R', hcreate, h.congr hs' h.maxPrio h.curThread ?_ (fun t => ?_)
    fun t j htj => .inl ((hmem _ _).1 htj).1⟩
  · obtain ⟨p, hp⟩ := h.linked
    exact ⟨p, (hmem _ _).2 ⟨hp, by simpa using huc.symm⟩⟩
  · rw [used_state]
    split_ifs with htu
    · exact .inr ⟨by rw [Node.thread.inj htu]; exact huc, rfl⟩
    · exact .inl rfl

theorem Running.enqueue {insert : Links Node → Node → Node → Option (Links Node)}
    (h : Running k R c) (hins : Insertion insert)
    (hfree : (k.thr (.thread t)).state = .ready → ∀ h, .thread t ∉ R h) :
    ∃ k' R', Kernel.enqueue insert k (.thread t) = some k' ∧ Running k' R' c := by
  by_cases hready : (k.thr (.thread t)).state = .ready
  swap
  · exact ⟨k, R, enqueue_of_not_ready hready, h⟩
  obtain ⟨L', R', henq, hs', -, hmem⟩ := h.shape.enqueue hins hready (hfree hready)
  have htc : t ≠ c := by
    rintro rfl
    cases hready.symm.trans ((h.running t).2 rfl)
  refine ⟨_, R', henq, h.congr hs' (exists_raise_maxPrio h.maxPrio) ?_ ?_ (fun u => ?_)
    fun u j hu => ?_⟩
  · rw [raise_curThread]
    exact h.curThread
  · exact h.linked.imp fun p hp => (hmem _ _).2 (.inl hp)
  · rw [raise_thr]
    exact .inl rfl
  · rw [raise_thr]
    rcases (hmem _ _).1 hu with hu | ⟨-, hu⟩
    · exact .inl hu
    · obtain rfl := Node.thread.inj hu
      exact .inr ⟨htc, hready⟩

theorem Running.wakeup (h : Running k R c)
    (huc : (k.thr (.thread t)).state = .waiting → u ≠ c) :
    ∃ k' R', k.wakeup (.thread t) (.thread u) = some k' ∧ Running k' R' c := by
  by_cases hwait : (k.thr (.thread t)).state = .waiting
  · obtain ⟨k', R', henq, hk'⟩ := (h.setReady (huc hwait)).enqueue (t := t) (.inr rfl)
      fun _ => h.waiting hwait
    exact ⟨k', R', (if_pos hwait).trans henq, hk'⟩
  · exact ⟨k, R, wakeup_of_not_waiting hwait _, h⟩

theorem Running.suspend (h : Running k R c) (ht : .thread t ∈ R (.ready p)) (htc : t ≠ c) :
    ∃ k' R', k.suspend (.thread t) = some k' ∧ Running k' R' c := by
  obtain ⟨L', R', n, hsusp, hs', hn, hmem⟩ := h.shape.suspend ht
  have hstate : ∀ u, ((({ k with links := L' }.setCursor p n).setState (.thread t) .waiting).thr
      (.thread u)).state = if u = t then .waiting else (k.thr (.thread u)).state := by
    intro u
    rw [setState_state]
    simp
  refine ⟨_, R', hsusp, ⟨hs', h.maxPrio, h.curThread, ?_, fun u => ?_, fun u r hu huc => ?_,
    fun u hwait j hj => ?_⟩⟩
  · obtain ⟨r, hr⟩ := h.linked
    exact ⟨r, (hmem _ _).2 ⟨hr, by simpa using htc.symm⟩⟩
  · rw [hstate]
    split_ifs with hut
    · simpa [hut] using htc
    · exact h.running u
  · obtain ⟨hu, hut⟩ := (hmem _ _).1 hu
    rw [hstate, if_neg (by simpa using hut)]
    exact h.ready hu huc
  · obtain ⟨hj, hut⟩ := (hmem _ _).1 hj
    rw [hstate, if_neg (by simpa using hut)] at hwait
    exact h.waiting hwait j hj

theorem Running.charge (h : Running k R c) (n : ℕ) : Running (k.charge n) R c :=
  h.congr (h.shape.charge n) h.maxPrio h.curThread h.linked (fun _ => .inl (charge_state ..))
    fun _ _ => .inl

theorem Running.setCursor (h : Running k R c) {x : Node} (hx : x ∈ R (.ready p)) :
    Running (k.setCursor p x) R c :=
  h.congr (h.shape.setCursor hx) h.maxPrio h.curThread h.linked (fun _ => .inl rfl) fun _ _ => .inl

/-- The thread switched to is running, and the one switched away from is ready. -/
theorem Running.dispatch (h : Running k R c) (ht : .thread t ∈ R (.ready p)) :
    Running (k.dispatch (.thread t)) R t where
  shape := h.shape.dispatch _
  maxPrio := h.maxPrio
  curThread := rfl
  linked := ⟨p, ht⟩
  running u := by
    rw [dispatch_state, h.curThread]
    split_ifs with hut huc
    · simpa using Node.thread.inj hut
    · simpa using fun h' => hut (by rw [h'])
    · rw [h.running u]
      simp only [Node.thread.injEq] at hut huc
      simp [hut, huc]
  ready u r hu hut := by
    rw [dispatch_state, if_neg (by simpa using hut), h.curThread]
    split_ifs with huc
    · rfl
    · exact h.ready hu (by simpa using huc)
  waiting u hwait := by
    rw [dispatch_state] at hwait
    split_ifs at hwait
    exact h.waiting hwait

/-- A tick without a pending thread. -/
theorem Running.tick (h : Running k R c) (hok : k.RunningOk .tick) :
    ∃ k' b c', k.scheduleInInterrupt = some (k', b) ∧ Running k' R c' ∧ (b = true → c' ≠ c) := by
  obtain ⟨q, hq⟩ := h.maxPrio
  obtain ⟨hpend, hsel⟩ := hok
  obtain ⟨n, hcases⟩ := h.shape.scheduleInInterrupt hq fun h => absurd h hpend
  rcases hcases with ⟨hpend', -⟩ | ⟨-, -, htick⟩ | ⟨-, hexp, x, hx, hfound, htick⟩
  · exact absurd hpend' hpend
  · exact ⟨_, false, c, htick, h.charge n, by simp⟩
  · obtain ⟨t, rfl⟩ := hfound.exists_thread h.shape (hsel hexp q hq)
    rw [h.curThread] at htick
    split_ifs at htick with htc
    · exact ⟨_, false, c, htick, (h.charge n).setCursor hx, by simp⟩
    · exact ⟨_, true, t, htick, ((h.charge n).setCursor hx).dispatch hx,
        fun _ h' => htc (by rw [h'])⟩

theorem Running.scheduleInKernel (h : Running k R c) (hok : k.RunningOk .scheduleInKernel) :
    ∃ k', k.scheduleInKernel = some k' ∧ Running k' R c := by
  obtain ⟨q, hq⟩ := h.maxPrio
  obtain ⟨hcur, hno⟩ := hok q hq
  obtain ⟨x, hx, hfind, hfound⟩ := h.shape.findNextThread hq
  have hxc : x = k.curThread := by
    rcases hfound with ⟨t, rfl, hready⟩ | ⟨hx', -⟩
    · exact absurd hready (hno t (h.shape.onList_iff.2 hx))
    · exact Option.some.inj (hx'.symm.trans hcur)
  refine ⟨_, ?_, h.setCursor hx⟩
  simp only [Kernel.scheduleInKernel, hfind, Option.bind_eq_bind, Option.bind_some]
  exact if_pos hxc

theorem Running.step {op : Op} (h : Running k R c) (hok : k.RunningOk op)
    (hstep : k.step op = some k') : ∃ R' c', Running k' R' c' := by
  -- The running thread changes at a tick only.
  cases op with
  | create =>
    obtain ⟨t, ht⟩ := hok
    obtain ⟨k₁, x, R', hcreate, hk₁⟩ := h.create (h.shape.onList_iff.1 ht)
    rw [Kernel.step, hcreate] at hstep
    exact Option.some.inj hstep ▸ ⟨R', c, hk₁⟩
  | addThread pid t => exact ⟨R, c, h.sameSched (sameSched_of_addThread hstep)⟩
  | append t =>
    obtain ⟨k₁, R', happ, hk₁⟩ := h.enqueue (.inr rfl) fun hr => h.shape.unlinked_iff.1 (hok hr)
    exact Option.some.inj (happ.symm.trans hstep) ▸ ⟨R', c, hk₁⟩
  | push t =>
    obtain ⟨k₁, R', happ, hk₁⟩ := h.enqueue (.inl rfl) fun hr => h.shape.unlinked_iff.1 (hok hr)
    exact Option.some.inj (happ.symm.trans hstep) ▸ ⟨R', c, hk₁⟩
  | suspend t =>
    obtain ⟨p, ht⟩ := h.shape.mem_ready_of_suspend hok.1
      (by rw [show k.suspend (.thread t) = _ from hstep]; simp)
    obtain ⟨k₁, R', hsusp, hk₁⟩ := h.suspend ht fun htc => hok.2 (by rw [htc, h.curThread])
    exact Option.some.inj (hsusp.symm.trans hstep) ▸ ⟨R', c, hk₁⟩
  | wakeup t u =>
    obtain ⟨k₁, R', hwake, hk₁⟩ := h.wakeup (t := t) (u := u) fun hw huc =>
      hok hw (by rw [huc, h.curThread])
    exact Option.some.inj (hwake.symm.trans hstep) ▸ ⟨R', c, hk₁⟩
  | tick =>
    obtain ⟨k₁, b, c', htick, hk₁, -⟩ := h.tick hok
    rw [Kernel.step, htick] at hstep
    exact Option.some.inj hstep ▸ ⟨R, c', hk₁⟩
  | scheduleInKernel =>
    obtain ⟨k₁, hsched, hk₁⟩ := h.scheduleInKernel hok
    exact Option.some.inj (hsched.symm.trans hstep) ▸ ⟨R, c, hk₁⟩
  -- These are outside of the claim's runs.
  | destroy _ => exact hok.elim
  | remove _ => exact hok.elim
  | lock _ => exact hok.elim
  | trylock _ => exact hok.elim
  | unlock _ => exact hok.elim

/-! ## Runs -/

variable {k₀ : Kernel} {prio : Tid → Prio} {mem : Hdr → Thread} {val : ℕ → ℤ}

/-- In every state of such a run, the current thread is the only one running, the other threads in
    ready rings are ready, and so is, in particular, the thread a tick switches away from. -/
theorem running_iff_of_run (hboot : boot prio mem val = some k₀) (hrun : Run step RunningOk k₀ k) :
    ∃ c, k.curThread = .thread c ∧ (∀ t, (k.thr (.thread t)).state = .running ↔ t = c) ∧
      (∀ t p, k.OnList (.ready p) t → t ≠ c → (k.thr (.thread t)).state = .ready) ∧
      ∀ k', k.RunningOk .tick → k.scheduleInInterrupt = some (k', true) →
        (k'.thr (.thread c)).state = .ready ∧
          k'.OnList (.ready (k'.thr (.thread c)).priority) c := by
  obtain ⟨R, c, hbooted⟩ := booted_of_boot hboot
  obtain ⟨R, c, h⟩ := hrun.invariant (I := fun k => ∃ R c, Running k R c)
    (fun ⟨_, _, h⟩ hok hstep => h.step hok hstep) ⟨R, c, hbooted.isRunning⟩
  refine ⟨c, h.curThread, h.running, fun t p ht => h.ready (h.shape.onList_iff.1 ht),
    fun k' hok hk' => ?_⟩
  obtain ⟨k₁, b, c', htick, hk₁, hb⟩ := h.tick hok
  obtain ⟨rfl, rfl⟩ := Prod.mk.inj (Option.some.inj (hk'.symm.trans htick))
  obtain ⟨p, hp⟩ := h.linked
  refine ⟨hk₁.ready hp (Ne.symm (hb rfl)), ?_⟩
  rw [hk₁.shape.prio hp]
  exact hk₁.shape.onList_iff.2 hp

/-- A tick without a pending thread, the cursor being at one of the idle threads. -/
def IdleTick (k : Kernel) (op : Op) : Prop :=
  op = .tick ∧ ¬k.Pending ∧ k.maxPrio = 0 ∧
    (k.curNodeInGroup 0 = some (.thread 0) ∨ k.curNodeInGroup 0 = some (.thread 1))

instance (k : Kernel) (op : Op) : Decidable (k.IdleTick op) := inferInstanceAs (Decidable (_ ∧ _))

theorem IdleTick.runningOk {op : Op} (h : k.IdleTick op) : k.RunningOk op := by
  obtain ⟨rfl, hpend, hmax, hcur⟩ := h
  refine ⟨hpend, fun _ p hp => ?_⟩
  obtain rfl : p = 0 := Fin.ext (by simpa [hmax] using hp.symm)
  exact .inl (hcur.elim (fun h => ⟨0, h⟩) fun h => ⟨1, h⟩)

/-- After ten ticks, the first idle thread is running, and the second one is ready. -/
theorem first_idle_running :
    ∃ k₀ k, boot (fun _ => 0) noThread (fun _ => 0) = some k₀ ∧ Run step RunningOk k₀ k ∧
      ∀ t, (k.thr (.thread t)).state = .running ↔ t = 0 := by
  have hticks : ((boot (fun _ => 0) noThread fun _ => 0).bind fun k₀ =>
      (execute step IdleTick k₀ (List.replicate 10 .tick)).map curThread) = some (.thread 0) := by
    decide +kernel
  obtain ⟨k₀, hboot, hticks⟩ := Option.bind_eq_some_iff.1 hticks
  obtain ⟨k, hk, hcur⟩ := Option.map_eq_some_iff.1 hticks
  have hrun : Run step RunningOk k₀ k := (Run.of_execute hk).mono fun _ _ h => h.runningOk
  obtain ⟨c, hc, hrunning, -⟩ := running_iff_of_run hboot hrun
  obtain rfl : c = 0 := Node.thread.inj (hc.symm.trans hcur)
  exact ⟨k₀, k, hboot, hrun, hrunning⟩

/-- The first idle thread has the higher priority. Once a tick has switched to it, it is still
    ready, and the thread it has preempted is still running. -/
theorem preempted_still_running :
    ∃ k₀ k, boot (fun t => if t = 0 then 5 else 0) noThread (fun _ => 0) = some k₀ ∧
      k₀.step .tick = some k ∧ k.curThread = .thread 0 ∧ (k.thr (.thread 0)).state = .ready ∧
      (k.thr (.thread 1)).state = .running := by
  have hrun : ((boot (fun t => if t = 0 then 5 else 0) noThread fun _ => 0).bind fun k₀ =>
      (k₀.step .tick).map fun k => (k.curThread, (k.thr (.thread 0)).state,
        (k.thr (.thread 1)).state)) = some (.thread 0, .ready, .running) := by
    decide +kernel
  obtain ⟨k₀, hboot, hrun⟩ := Option.bind_eq_some_iff.1 hrun
  obtain ⟨k, hk, hfields⟩ := Option.map_eq_some_iff.1 hrun
  simp only [Prod.mk.injEq] at hfields
  exact ⟨k₀, k, hboot, hk, hfields⟩

end Kernel

end DemoOs
