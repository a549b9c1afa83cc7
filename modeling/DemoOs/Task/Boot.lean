import DemoOs.Task.Ticks

/-!
# The kernel at start-up

After `Scheduler::start` (`Kernel.boot`), the kernel is well formed, with the two idle threads in
their ready rings, the second of them running, and all other threads in the free list or not of the
pool (`Kernel.Booted`, `exists_boot`). As the first idle thread may have the higher priority, it may
be pending.
-/

namespace DemoOs

namespace Kernel

variable {k : Kernel} {R : Hdr → Cycle Node} {t c : Tid} {prio : Tid → Prio} {mem : Hdr → Thread}
  {val : ℕ → ℤ}

/-! ## The lists before the idle threads -/

/-- The threads of the pool. -/
def pool : List Tid := (List.range inherentThreadNum).map (Fin.ofNat (2 ^ 16))

theorem mem_pool : t ∈ pool ↔ t < inherentThreadNum := by
  simp only [pool, List.mem_map, List.mem_range]
  constructor
  · rintro ⟨i, hi, rfl⟩
    have : i < 200 := hi
    simp only [Fin.ofNat, inherentThreadNum]
    omega
  · exact fun ht => ⟨t, ht, Fin.ext (Nat.mod_eq_of_lt t.isLt)⟩

theorem nodup_pool : pool.Nodup := by
  refine List.Nodup.map_on (fun i hi j hj hij => ?_) List.nodup_range
  rw [List.mem_range, inherentThreadNum] at hi hj
  have := congrArg Fin.val hij
  simp only [Fin.ofNat] at this
  omega

/-- The rings once all threads of the pool are free. -/
def bootRings : Hdr → Cycle Node
  | .free => ↑(.hdr .free :: pool.map .thread : List Node)
  | h => ↑([.hdr h] : List Node)

/-- After `ThreadManager::init`, the free list is the only ring. -/
theorem exists_initThreadManager (prio : Tid → Prio) (mem : Hdr → Thread) (val : ℕ → ℤ) :
    ∃ L : Links Node, (zero prio mem val).initThreadManager =
        some { zero prio mem val with links := L } ∧
      L.Rings (Function.update (fun _ => Cycle.nil) Hdr.free (bootRings .free)) := by
  have h₀ : (zero prio mem val).links.Rings fun _ : Hdr => Cycle.nil := .of_null fun _ => ⟨rfl, rfl⟩
  have h₁ := h₀.initRing (i := .free) (x := .hdr .free) rfl fun _ => Cycle.notMem_nil _
  have hfree : ∀ x ∈ pool.map Node.thread, ∀ j,
      x ∉ Function.update (fun _ => Cycle.nil) Hdr.free ↑([.hdr .free] : List Node) j := by
    intro x hx j
    obtain ⟨t, -, rfl⟩ := List.mem_map.1 hx
    by_cases hj : j = .free
    · subst hj
      simp
    · rw [Function.update_of_ne hj]
      exact Cycle.notMem_nil _
  obtain ⟨L, hL, hr⟩ := h₁.foldlM_insertBefore (Function.update_self ..) _ hfree
    (nodup_pool.map fun _ _ => Node.thread.inj)
  refine ⟨L, ?_, by rwa [Function.update_idem] at hr⟩
  rw [List.foldlM_map, pool] at hL
  simp only [initThreadManager, hL, Option.bind_eq_bind, Option.bind_some]
  rfl

theorem hdr_mem_bootRings {h h' : Hdr} : .hdr h' ∈ bootRings h ↔ h' = h := by
  cases h <;> simp [bootRings]

theorem thread_mem_bootRings {h : Hdr} :
    .thread t ∈ bootRings h ↔ h = .free ∧ t < inherentThreadNum := by
  cases h <;> simp [bootRings, mem_pool]

/-- The other headers are initialised with nothing linked to them. -/
theorem rings_initHeaders
    (h : k.links.Rings (Function.update (fun _ => Cycle.nil) Hdr.free (bootRings .free))) :
    k.initHeaders.links.Rings bootRings where
  ring h' := by
    cases h' with
    | free =>
      have hfree := h.ring .free
      rw [Function.update_self] at hfree
      refine hfree.congr fun x hx => ?_
      -- The header of the free list and the threads in it are not written again.
      rcases x with (_ | _ | _) | _
      · exact ⟨rfl, rfl⟩
      · exact absurd (hdr_mem_bootRings.1 hx) (by simp)
      · exact absurd (hdr_mem_bootRings.1 hx) (by simp)
      · exact ⟨rfl, rfl⟩
    | ready p => exact ⟨Cycle.nodup_coe_iff.2 (List.nodup_singleton _),
        (Cycle.chain_singleton _ _).2 ⟨rfl, rfl⟩⟩
    | waiters σ => exact ⟨Cycle.nodup_coe_iff.2 (List.nodup_singleton _),
        (Cycle.chain_singleton _ _).2 ⟨rfl, rfl⟩⟩
  disjoint := by
    intro i j x hi hj
    cases x with
    | hdr h' => exact (hdr_mem_bootRings.1 hi).symm.trans (hdr_mem_bootRings.1 hj)
    | thread t =>
      exact (thread_mem_bootRings.1 hi).1.trans (thread_mem_bootRings.1 hj).1.symm
  null := by
    intro x hx
    cases x with
    | hdr h' => exact absurd (hdr_mem_bootRings.2 rfl) (hx h')
    | thread t =>
      refine h.null fun j => ?_
      by_cases hj : j = .free
      · subst hj
        rw [Function.update_self]
        exact hx .free
      · rw [Function.update_of_ne hj]
        exact Cycle.notMem_nil _

/-! ## The idle threads -/

/-- The kernel while the idle threads are created: threads are ready in their rings, or else
    stopped. -/
structure Idle (k : Kernel) (R : Hdr → Cycle Node) : Prop where
  shape : Shape k R
  no_waiters : ∀ σ t, .thread t ∉ R (.waiters σ)
  pool : ∀ ⦃h⦄ ⦃t : Tid⦄, .thread t ∈ R h → t < inherentThreadNum
  ready : ∀ ⦃t p⦄, .thread t ∈ R (.ready p) → (k.thr (.thread t)).state = .ready
  stopped : ∀ t, (∀ p, .thread t ∉ R (.ready p)) → (k.thr (.thread t)).state = .stopped
  le_maxPrio : ∀ ⦃t p⦄, .thread t ∈ R (.ready p) → (p : ℤ) ≤ k.maxPrio
  higher : k.maxPrio = -1 ∨ ∃ (q : Prio) (t : Tid), k.maxPrio = (q : ℕ) ∧
    k.higherPriorityThread = some (.thread t) ∧ .thread t ∈ R (.ready q)
  proc : (k.procLinks.prev (.hdr 0)).isSome

/-- `addThread` concerns the lists of the process only. -/
theorem sameSched_of_addThread {k' : Kernel} {pid : ℕ} {x : Node}
    (h : k.addThread pid x = some k') : SameSched k' k := by
  obtain ⟨P, -, hk'⟩ := Option.bind_eq_some_iff.1 h
  rw [← Option.some.inj hk']
  split_ifs
  · refine ⟨rfl, rfl, rfl, rfl, rfl, rfl, fun y => ?_, fun y => ?_⟩ <;>
      simp only [modThread_thr] <;> split_ifs <;> rfl
  · exact ⟨rfl, rfl, rfl, rfl, rfl, rfl, fun _ => rfl, fun _ => rfl⟩

theorem exists_addThread (pid : ℕ) (x : Node) (h : (k.procLinks.prev (.hdr pid)).isSome) :
    ∃ k', k.addThread pid x = some k' ∧ (k'.procLinks.prev (.hdr pid)).isSome := by
  set k₁ := if (k.thr x).proc = none then k.modThread x fun t => { t with proc := some pid } else k
    with hk₁
  have hproc : k₁.procLinks = k.procLinks := by
    rw [hk₁]
    split_ifs <;> rfl
  obtain ⟨y, hy⟩ := Option.isSome_iff_exists.1 h
  obtain ⟨P, hP, hprev⟩ := Links.exists_insertBefore_of_prev (x := ProcNode.thread x)
    (hproc ▸ hy : k₁.procLinks.prev (.hdr pid) = some y) (by simp)
  refine ⟨{ k₁ with procLinks := P }, ?_, by simp [hprev]⟩
  simp only [addThread, ← hk₁, hP, Option.bind_eq_bind, Option.bind_some]

/-- When a thread is raised, it is the one of the highest priority, or the one before still is. -/
theorem raise_higher {R' : Hdr → Cycle Node} {c : Tid}
    (h : k.maxPrio = -1 ∨ ∃ (q : Prio) (t : Tid), k.maxPrio = (q : ℕ) ∧
      k.higherPriorityThread = some (.thread t) ∧ .thread t ∈ R (.ready q))
    (hc : .thread c ∈ R' (.ready (k.thr (.thread c)).priority))
    (hmem : ∀ t q, .thread t ∈ R (.ready q) → .thread t ∈ R' (.ready q)) :
    (k.raise (.thread c)).maxPrio = -1 ∨ ∃ (q : Prio)
    (t : Tid), (k.raise (.thread c)).maxPrio = (q : ℕ) ∧
      (k.raise (.thread c)).higherPriorityThread = some (.thread t) ∧
      .thread t ∈ R' (.ready q) := by
  rw [raise_maxPrio, raise_higherPriorityThread]
  by_cases hlt : k.maxPrio < (k.thr (.thread c)).priority
  · exact .inr ⟨_, c, max_eq_right hlt.le, if_pos hlt, hc⟩
  · rw [max_eq_left (not_lt.1 hlt), if_neg hlt]
    rcases h with hneg | ⟨q, t, hq, hhigh, ht⟩
    · exact .inl hneg
    · exact .inr ⟨q, t, hq, hhigh, hmem t q ht⟩

/-- An idle thread is created. -/
theorem Idle.startIdle (h : Idle k R) (ht : .thread t ∈ R .free) :
    ∃ k' R' c, k.startIdle = some k' ∧ Idle k' R' ∧ k'.curThread = .thread c ∧
      .thread c ∈ R' (.ready (k'.thr (.thread c)).priority) ∧
      ∀ u, .thread u ∈ R .free → u ≠ c → .thread u ∈ R' .free := by
  -- `createThread` takes `c`, the first thread of the pool, and leaves it in no list.
  obtain ⟨c, L₁, R₁, hc, hcreate, hs₁, hmem₁⟩ := h.shape.createThread ht
  obtain ⟨k₂, hadd, hproc⟩ := exists_addThread 0 (.thread c)
    (k := { k.used L₁ c with curThread := .thread c }) h.proc
  have hsame := sameSched_of_addThread hadd
  have hs₂ : Shape k₂ R₁ := hsame.shape (hs₁.congr rfl rfl fun _ => rfl)
  have hfree : ∀ h, .thread c ∉ R₁ h := fun h hc => ((hmem₁ h _).1 hc).2 rfl
  have hready : (k₂.thr (.thread c)).state = .ready := by
    rw [hsame.state]
    simp
  -- `append` links it into the ring of its priority.
  obtain ⟨L₃, R₃, happ, hs₃, -, hmem₃⟩ := hs₂.enqueue (.inr rfl) hready hfree
  -- So the lists differ in `c` alone.
  have hmem : ∀ j u, .thread u ∈ R₃ j ↔ .thread u ∈ R j ∧ u ≠ c ∨
      j = .ready (k₂.thr (.thread c)).priority ∧ u = c := by
    intro j u
    rw [hmem₃, hmem₁]
    simp
  have hstate : ∀ u, (k₂.thr (.thread u)).state =
      if u = c then .ready else (k.thr (.thread u)).state := by
    intro u
    rw [hsame.state]
    simp
  have hmax : k₂.maxPrio = k.maxPrio := hsame.maxPrio
  refine ⟨_, R₃, c, ?_,
    { shape := hs₃
      no_waiters := fun σ u hu => ?_
      pool := fun j u hu => ?_
      ready := fun u p hu => ?_
      stopped := fun u hu => ?_
      le_maxPrio := fun u p hu => ?_
      higher := ?_
      proc := ?_ }, ?_, ?_, fun u hu huc => (hmem _ u).2 (.inl ⟨hu, huc⟩)⟩
  · simp only [Kernel.startIdle, hcreate, hadd, Option.bind_eq_bind, Option.bind_some]
    exact happ
  · rcases (hmem _ u).1 hu with ⟨hu, -⟩ | ⟨h', -⟩
    · exact h.no_waiters σ u hu
    · exact absurd h' (by simp)
  · rcases (hmem _ u).1 hu with ⟨hu, -⟩ | ⟨-, rfl⟩
    exacts [h.pool hu, h.pool hc]
  · rw [raise_thr, hstate]
    split_ifs with huc
    · rfl
    · exact h.ready (((hmem _ u).1 hu).resolve_right fun h' => huc h'.2).1
  · have huc : u ≠ c := by
      rintro rfl
      exact hu _ ((hmem _ u).2 (.inr ⟨rfl, rfl⟩))
    rw [raise_thr, hstate, if_neg huc]
    exact h.stopped u fun p hp => hu p ((hmem _ u).2 (.inl ⟨hp, huc⟩))
  · rw [raise_maxPrio, le_max_iff]
    rcases (hmem _ u).1 hu with ⟨hu, -⟩ | ⟨hp, -⟩
    · exact .inl (hmax ▸ h.le_maxPrio hu)
    · rw [Hdr.ready.inj hp]
      exact .inr le_rfl
  · -- The pending thread was there before, or it is `c`, which is in its ring now.
    refine raise_higher (k := { k₂ with links := L₃ }) (R := R) ?_
      ((hmem _ c).2 (.inr ⟨rfl, rfl⟩)) fun u p hu => ?_
    · dsimp only
      rw [hmax, hsame.higherPriorityThread]
      exact h.higher
    · have huc : u ≠ c := by
        rintro rfl
        exact absurd (h.shape.rings.disjoint hu hc) (by simp)
      exact (hmem _ u).2 (.inl ⟨hu, huc⟩)
  · rw [raise_procLinks]
    exact hproc
  · rw [raise_curThread]
    exact hsame.curThread
  · rw [raise_thr]
    exact (hmem _ c).2 (.inr ⟨rfl, rfl⟩)

/-! ## The booted kernel -/

/-- The kernel after start-up, `c` being the current thread. -/
structure Booted (k : Kernel) (R : Hdr → Cycle Node) (c : Tid) : Prop where
  shape : Shape k R
  no_waiters : ∀ σ t, .thread t ∉ R (.waiters σ)
  pool : ∀ ⦃h⦄ ⦃t : Tid⦄, .thread t ∈ R h → t < inherentThreadNum
  curThread : k.curThread = .thread c
  linked : .thread c ∈ R (.ready (k.thr (.thread c)).priority)
  cursor : k.curNodeInGroup (k.thr (.thread c)).priority = some (.thread c)
  running : (k.thr (.thread c)).state = .running
  ready : ∀ ⦃t p⦄, .thread t ∈ R (.ready p) → t ≠ c → (k.thr (.thread t)).state = .ready
  stopped : ∀ t, (∀ p, .thread t ∉ R (.ready p)) → (k.thr (.thread t)).state = .stopped
  higher : ∃ (q : Prio) (t : Tid), k.maxPrio = (q : ℕ) ∧
    (∀ ⦃u p⦄, .thread u ∈ R (.ready p) → p ≤ q) ∧
    k.higherPriorityThread = some (.thread t) ∧ .thread t ∈ R (.ready q)

theorem Booted.state_of_ne (h : Booted k R c) (ht : t ≠ c) :
    (k.thr (.thread t)).state = .ready ∨ (k.thr (.thread t)).state = .stopped := by
  by_cases hlinked : ∃ p, .thread t ∈ R (.ready p)
  · exact .inl (h.ready hlinked.choose_spec ht)
  · exact .inr (h.stopped t fun p hp => hlinked ⟨p, hp⟩)

/-- No thread of the pool is in a ready ring before the idle threads. -/
theorem idle_initHeaders (prio : Tid → Prio) (mem : Hdr → Thread) (val : ℕ → ℤ) {L : Links Node}
    (hL : L.Rings (Function.update (fun _ => Cycle.nil) Hdr.free (bootRings .free))) :
    Idle ({ zero prio mem val with
      links := L, maxPrio := -1, higherPriorityThread := none }.initHeaders) bootRings where
  shape :=
    { rings := rings_initHeaders hL
      header := fun _ => hdr_mem_bootRings.2 rfl
      prio := fun _ _ ht => absurd (thread_mem_bootRings.1 ht).1 (by simp)
      cursor := fun p => ⟨_, hdr_mem_bootRings.2 rfl, rfl⟩ }
  no_waiters _ _ ht := absurd (thread_mem_bootRings.1 ht).1 (by simp)
  pool _ _ ht := (thread_mem_bootRings.1 ht).2
  ready _ _ ht := absurd (thread_mem_bootRings.1 ht).1 (by simp)
  stopped _ _ := rfl
  le_maxPrio _ _ ht := absurd (thread_mem_bootRings.1 ht).1 (by simp)
  higher := .inl rfl
  proc := rfl

theorem Idle.start (h : Idle k R) (hcur : k.curThread = .thread c)
    (hc : .thread c ∈ R (.ready (k.thr (.thread c)).priority)) : Booted k.start R c := by
  have hstart : k.start = (k.setState (.thread c) .running).setCursor
      (k.thr (.thread c)).priority (.thread c) := by
    simp [Kernel.start, setCursor, hcur]
  obtain ⟨q, t, hq, hhigh, ht⟩ := h.higher.resolve_left fun hneg => by
    have := h.le_maxPrio hc
    omega
  rw [hstart]
  exact
    { shape := (h.shape.setState _ _).setCursor hc
      no_waiters := h.no_waiters
      pool := h.pool
      curThread := hcur
      linked := by simpa using hc
      cursor := by simp
      running := by simp
      ready := fun u p hu huc => by simpa [huc] using h.ready hu
      stopped := fun u hu => by
        have huc : u ≠ c := by rintro rfl; exact hu _ hc
        simpa [huc] using h.stopped u hu
      higher := ⟨q, t, hq, fun u p hu => by
        have := h.le_maxPrio hu
        exact Fin.le_def.2 (by omega), hhigh, ht⟩ }

/-- The kernel boots. -/
theorem exists_boot (prio : Tid → Prio) (mem : Hdr → Thread) (val : ℕ → ℤ) :
    ∃ k R c, boot prio mem val = some k ∧ Booted k R c := by
  obtain ⟨L, hinit, hL⟩ := exists_initThreadManager prio mem val
  have h₀ := idle_initHeaders prio mem val hL
  obtain ⟨k₁, R₁, c₁, hk₁, h₁, -, -, hfree⟩ := h₀.startIdle (t := 0)
    (thread_mem_bootRings.2 ⟨rfl, by decide⟩)
  -- Whichever thread went to the first idle thread, there is another free one.
  obtain ⟨t, ht⟩ : ∃ t, .thread t ∈ R₁ .free := by
    by_cases hc : c₁ = 0
    · exact ⟨1, hfree 1 (thread_mem_bootRings.2 ⟨rfl, by decide⟩) (by rw [hc]; decide)⟩
    · exact ⟨0, hfree 0 (thread_mem_bootRings.2 ⟨rfl, by decide⟩) (Ne.symm hc)⟩
  obtain ⟨k₂, R₂, c₂, hk₂, h₂, hcur, hlinked, -⟩ := h₁.startIdle ht
  refine ⟨k₂.start, R₂, c₂, ?_, h₂.start hcur hlinked⟩
  simp only [boot, hinit, initScheduler, hk₁, hk₂, Option.bind_eq_bind, Option.bind_some]

theorem booted_of_boot (h : boot prio mem val = some k) : ∃ R c, Booted k R c := by
  obtain ⟨k', R, c, hk', hbooted⟩ := exists_boot prio mem val
  obtain rfl : k' = k := Option.some.inj (hk'.symm.trans h)
  exact ⟨R, c, hbooted⟩

/-- The memory around the headers in the runs given below. -/
def noThread (_ : Hdr) : Thread := ⟨.stopped, 0, 0, 0, none⟩

end Kernel

end DemoOs
