import DemoOs.Task.RoundRobin

/-!
# Removal from a ready ring

`Scheduler::remove` moves the cursor of the ready ring to the node after the thread removed,
whichever thread it is. At the end of the time slice `findNextThread` begins after this node,
instead of after the running thread: the threads in between are passed over, and so is the node
itself.

* `KeepsTurns`: the later turns are those there would have been, without those of the thread
  removed;
* `Resumes.keepsTurns_iff_resumes`: this depends on the next turn alone;
* `keepsTurns_remove_iff`: it is so exactly if the Ready threads of the ring are all on one side.
-/

namespace DemoOs

namespace Kernel

variable {k k' : Kernel} {R R' : Hdr → Cycle Node} {q q' : Prio} {l l' : List Node}
  {Q Q' : Queue Tid} {x : Tid}

/-- The threads dispatched in any number of ticks from `k`, `x` left out, are those dispatched in
    some number of ticks from `k'`. -/
def KeepsTurns (k k' : Kernel) (x : Node) : Prop :=
  ∀ n, ∃ m xs, k.dispatched (List.replicate n .tick) = some xs ∧
    k'.dispatched (List.replicate m .tick) = some (xs.filter (· ≠ x))

/-! ## The turns -/

theorem dispatched_tick_cons {b : Bool} (h : k.scheduleInInterrupt = some (k', b)) (ops : List Op) :
    k.dispatched (.tick :: ops) = (k'.dispatched ops).map fun xs =>
      if k.Expiring then k'.curThread :: xs else xs := by
  rw [dispatched, Kernel.step, h]
  cases hd : k'.dispatched ops <;> simp [hd]

/-- In any number of ticks, there are some turns of the queue. -/
theorem Resumes.dispatched (h : Resumes k R q l Q) (n : ℕ) :
    ∃ j, k.dispatched (List.replicate n .tick) = some ((turns j Q.upcoming).map .thread) := by
  induction n generalizing k l Q with
  | zero => exact ⟨0, rfl⟩
  | succ n ih =>
    rw [List.replicate_succ]
    by_cases hexp : k.Expiring
    · obtain ⟨k', b, l', htick, h', hcursor, -⟩ := h.expire hexp
      obtain ⟨j, hj⟩ := ih (h'.resumes hcursor)
      refine ⟨j + 1, ?_⟩
      rw [dispatched_tick_cons htick, hj, ← Queue.dispatches_expire, ← Queue.dispatches_expire,
        List.replicate_succ, Queue.dispatches, Option.map_some, if_pos hexp, h'.curThread,
          List.map_cons]
    · obtain ⟨j, hj⟩ := ih (h.charge k.nextTicks)
      refine ⟨j, ?_⟩
      rw [dispatched_tick_cons (h.scheduleInInterrupt hexp), hj, Option.map_some, if_neg hexp]

/-- A time slice comes to its end, a tick after the other. -/
theorem Resumes.exists_expiring (h : Resumes k R q l Q)
    (hticks : ∀ y ∈ R (.ready q), (k.thr y).totalTicks < 2 ^ 32) :
    ∃ n k', Resumes k' R q l Q ∧ (∀ y ∈ R (.ready q), (k'.thr y).totalTicks < 2 ^ 32) ∧
      k'.Expiring ∧
      ∀ ops, k.dispatched (List.replicate n .tick ++ ops) = k'.dispatched ops := by
  obtain ⟨d, hd⟩ : ∃ d, (k.thr k.curThread).totalTicks ≤ k.nextTicks + d :=
    ⟨(k.thr k.curThread).totalTicks, Nat.le_add_left ..⟩
  induction d generalizing k with
  | zero => exact ⟨0, k, h, hticks, hd, fun ops => rfl⟩
  | succ d ih =>
    by_cases hexp : k.Expiring
    · exact ⟨0, k, h, hticks, hexp, fun ops => rfl⟩
    have hlt : k.nextTicks < (k.thr k.curThread).totalTicks := not_le.1 hexp
    have hnext : (k.charge k.nextTicks).nextTicks = k.nextTicks + 1 := by
      have := hticks k.curThread (h.curThread ▸ h.mem)
      rw [nextTicks, charge_curThread, charge_execTicks, word, Nat.mod_eq_of_lt (by omega)]
    obtain ⟨n, k', h', hticks', hexp', hdisp⟩ := ih (h.charge k.nextTicks)
      (fun y hy => (charge_totalTicks ..).trans_lt (hticks y hy))
      (by rw [charge_curThread, charge_totalTicks, hnext]; omega)
    refine ⟨n + 1, k', h', hticks', hexp', fun ops => ?_⟩
    rw [List.replicate_succ, List.cons_append,
      dispatched_tick_cons (h.scheduleInInterrupt hexp), hdisp]
    simp [hexp]

/-- Any number of turns of the queue come in some number of ticks. -/
theorem Resumes.exists_dispatched (h : Resumes k R q l Q)
    (hticks : ∀ y ∈ R (.ready q), (k.thr y).totalTicks < 2 ^ 32) (j : ℕ) :
    ∃ n, k.dispatched (List.replicate n .tick) = some ((turns j Q.upcoming).map .thread) := by
  induction j generalizing k l Q with
  | zero => exact ⟨0, rfl⟩
  | succ j ih =>
    obtain ⟨n, k₁, h₁, hticks₁, hexp, hdisp⟩ := h.exists_expiring hticks
    obtain ⟨k₂, b, l₂, htick, h₂, hcursor, htotal⟩ := h₁.expire hexp
    obtain ⟨m, hm⟩ := ih (h₂.resumes hcursor) fun y hy => (htotal y).trans_lt (hticks₁ y hy)
    refine ⟨n + (m + 1), ?_⟩
    rw [List.replicate_add, hdisp, List.replicate_succ, dispatched_tick_cons htick, hm,
      Option.map_some, if_pos hexp, ← Queue.dispatches_expire, ← Queue.dispatches_expire,
      List.replicate_succ, Queue.dispatches, h₂.curThread, List.map_cons]

/-- The first thread dispatched is the one found from the cursor. -/
theorem Turning.head_dispatched {u : Node} {m : List Node} (h : Turning k R q l Q)
    (hcursor : k.curNodeInGroup q = some u) (hring : R (.ready q) = ↑(u :: m)) {n : ℕ} {y : Node}
    {ys : List Node} (hy : k.dispatched (List.replicate n .tick) = some (y :: ys)) :
    y = (m.find? (k.Candidate (.hdr (.ready q)))).getD u := by
  induction n generalizing k with
  | zero => cases hy
  | succ n ih =>
    rw [List.replicate_succ] at hy
    by_cases hexp : k.Expiring
    · have htick := h.scheduleInInterrupt_expiring hexp hcursor hring
      dsimp only at htick
      split_ifs at htick with hcur
      · rw [dispatched_tick_cons htick, Option.map_eq_some_iff] at hy
        obtain ⟨xs, -, hxs⟩ := hy
        rw [if_pos hexp] at hxs
        exact (List.cons.inj hxs).1.symm.trans hcur.symm
      · rw [dispatched_tick_cons htick, Option.map_eq_some_iff] at hy
        obtain ⟨xs, -, hxs⟩ := hy
        rw [if_pos hexp] at hxs
        exact (List.cons.inj hxs).1.symm
    · rw [dispatched_tick_cons (h.scheduleInInterrupt hexp), Option.map_eq_some_iff] at hy
      obtain ⟨xs, hxs, heq⟩ := hy
      rw [if_neg hexp] at heq
      exact (ih (h.charge _) hcursor (heq ▸ hxs)).trans (by rw [charge_candidate])

/-! ## The next turn -/

/-- Where the cursor is, says whether the turns go on as in the queue. -/
theorem Turning.resumes_iff {u : Node} {m : List Node} (h : Turning k R q l Q)
    (hcursor : k.curNodeInGroup q = some u) (hring : R (.ready q) = ↑(u :: m)) :
    Resumes k R q l Q ↔
      (m.find? (k.Candidate (.hdr (.ready q)))).getD u = .thread Q.expire.running := by
  refine ⟨fun ⟨_, u', m', hcursor', hring', hpick⟩ => ?_,
    fun hpick => ⟨h, u, m, hcursor, hring, hpick⟩⟩
  have hfind := h.shape.findNextThread_eq h.maxPrio hcursor hring
  have hfind' := h.shape.findNextThread_eq h.maxPrio hcursor' hring'
  exact (Prod.mk.inj (Option.some.inj (hfind.symm.trans hfind'))).2.trans hpick

theorem filter_map_thread (ts : List Tid) (x : Tid) :
    (ts.map Node.thread).filter (· ≠ .thread x) = (ts.filter (· ≠ x)).map .thread := by
  rw [List.filter_map]
  congr 2
  funext t
  simp

/-- The later turns are kept exactly if the next one is. -/
theorem Resumes.keepsTurns_iff_resumes (h : Resumes k R q l Q) (h' : Turning k' R' q' l' Q')
    (hticks : ∀ y ∈ R (.ready q), (k.thr y).totalTicks < 2 ^ 32)
    (hticks' : ∀ y ∈ R' (.ready q'), (k'.thr y).totalTicks < 2 ^ 32)
    (hQ : Q'.upcoming = Q.upcoming.filter (· ≠ x)) :
    KeepsTurns k k' (.thread x) ↔ Resumes k' R' q' l' Q' := by
  constructor
  · intro hkeep
    obtain ⟨y, ys, hys⟩ := List.exists_cons_of_ne_nil (l := Q'.upcoming) (by simp [Queue.upcoming])
    obtain ⟨j, hj⟩ := Queue.exists_filter_turns_eq_singleton (hQ.symm.trans hys)
    obtain ⟨n, hn⟩ := h.exists_dispatched hticks j
    obtain ⟨m, xs, hxs, hm⟩ := hkeep n
    obtain rfl := Option.some.inj (hn.symm.trans hxs)
    rw [filter_map_thread, hj] at hm
    obtain ⟨u, hu, hcursor⟩ := h'.shape.cursor q'
    obtain ⟨l₀, hl₀⟩ := Links.exists_coe_cons_of_mem hu
    rw [h'.resumes_iff hcursor hl₀, ← h'.head_dispatched hcursor hl₀ hm,
      (Queue.upcoming_expire hys).1]
  · intro hres n
    obtain ⟨j, hj⟩ := h.dispatched n
    obtain ⟨i, hi⟩ := Queue.exists_filter_turns (· ≠ x) j Q.upcoming
    obtain ⟨m, hm⟩ := hres.exists_dispatched hticks' i
    exact ⟨m, _, hj, by rw [hm, filter_map_thread, hi, hQ]⟩

/-! ## The place of the thread -/

/-- The running thread and the others take turns, whatever the ring is. -/
theorem Shape.exists_turning {c : Tid} (hs : Shape k R) (hmax : k.maxPrio = (q : ℕ))
    (hcur : k.curThread = .thread c) (hring : R (.ready q) = ↑(.thread c :: l : List Node)) :
    ∃ ts, Turning k R q l ⟨c, ts⟩ := by
  have hthread : ∀ y ∈ l.filter (k.Candidate (.hdr (.ready q))), ∃ t, Node.thread t = y := by
    intro y hy
    obtain ⟨hy, hcand⟩ := List.mem_filter.1 hy
    simp only [Candidate, decide_eq_true_eq] at hcand
    obtain ⟨t, ht⟩ := hs.eq_thread (x := y) (by rw [hring]; simp [hy]) hcand.1
    exact ⟨t, ht.symm⟩
  obtain ⟨ts, hts⟩ :
    l.filter (k.Candidate (.hdr (.ready q))) ∈ Set.range (List.map Node.thread) := by
    rw [Set.range_list_map]
    exact hthread
  exact ⟨ts, hs, hmax, hcur, hring, hts.symm⟩

/-- The others of the ring go on to take turns when a thread is removed. -/
theorem Turning.remove {l₁ l₂ : List Node} {c : Tid} {ts : List Tid}
    (h : Turning k R q (l₁ ++ .thread x :: l₂) ⟨c, ts⟩) :
    ∃ L' R' n, k.remove (.thread x) = some ({ k with links := L' }.setCursor q n) ∧
      (l₂ ++ [Node.thread c]).head? = some n ∧
      Turning ({ k with links := L' }.setCursor q n) R' q (l₁ ++ l₂) ⟨c, ts.filter (· ≠ x)⟩ := by
  obtain ⟨L', R', n, hrem, hs', hn, hring'⟩ := h.shape.remove_middle h.ring
  refine ⟨L', R', n, hrem, hn, hs', h.maxPrio, h.curThread, hring', ?_⟩
  have hnd := (List.nodup_cons.1 h.nodup).2
  rw [List.nodup_append, List.nodup_cons] at hnd
  have hne : (l₁ ++ .thread x :: l₂).filter (· ≠ .thread x) = l₁ ++ l₂ := by
    rw [List.filter_append, List.filter_cons_of_neg (by simp), List.filter_eq_self.2 fun y hy => ?_,
      List.filter_eq_self.2 fun y hy => ?_]
    · simpa using ne_of_mem_of_not_mem hy hnd.2.1.1
    · simpa using hnd.2.2 y hy _ List.mem_cons_self
  calc (l₁ ++ l₂).filter (k.Candidate (.hdr (.ready q)))
      = ((l₁ ++ .thread x :: l₂).filter (k.Candidate (.hdr (.ready q)))).filter
        (· ≠ .thread x) := by
        rw [← hne, List.filter_filter, List.filter_filter]
        simp only [Bool.and_comm]
    _ = (ts.filter (· ≠ x)).map .thread := by rw [h.others, filter_map_thread]

/-- **The removal of a thread leaves the others their turns** exactly if the running thread comes
    right after it in the ring, or there are Ready threads left either between the running thread
    and the node after the one removed, this one included, or from there to the running thread, but
    not both. -/
theorem keepsTurns_remove_iff {l₁ l₂ : List Node} {c : Tid} (hs : Shape k R)
    (hmax : k.maxPrio = (q : ℕ)) (hcur : k.curThread = .thread c)
    (hcursor : k.curNodeInGroup q = some (.thread c))
    (hring : R (.ready q) = ↑(.thread c :: (l₁ ++ .thread x :: l₂) : List Node))
    (hticks : ∀ y ∈ R (.ready q), (k.thr y).totalTicks < 2 ^ 32) :
    ∃ k', k.remove (.thread x) = some k' ∧
      (KeepsTurns k k' (.thread x) ↔
        l₂ = [] ∨ ((∃ y ∈ l₁ ++ l₂.take 1, k.Candidate (.hdr (.ready q)) y) ↔
          ∀ y ∈ l₂.drop 1 ++ [.thread c], ¬k.Candidate (.hdr (.ready q)) y)) := by
  obtain ⟨ts, h⟩ := hs.exists_turning hmax hcur hring
  obtain ⟨L', R', n, hrem, hn, h'⟩ := h.remove
  refine ⟨_, hrem, ?_⟩
  have hcx : c ≠ x := by
    rintro rfl
    simpa using (List.nodup_cons.1 h.nodup).1
  have hticks' : ∀ y ∈ R' (.ready q), (k.thr y).totalTicks < 2 ^ 32 := fun y hy => hticks y (by
    rw [h'.ring] at hy
    rw [hring]
    simp only [Cycle.mem_coe_iff, List.mem_cons, List.mem_append] at hy ⊢
    tauto)
  rw [(h.resumes hcursor).keepsTurns_iff_resumes h' hticks hticks' (by simp [Queue.upcoming, hcx])]
  have hcursor' : ({ k with links := L' }.setCursor q n).curNodeInGroup q = some n :=
    (setCursor_curNodeInGroup ..).trans (if_pos rfl)
  cases l₂ with
  | nil =>
    obtain rfl : .thread c = n := by simpa using hn
    exact iff_of_true (h'.resumes hcursor') (.inl rfl)
  | cons v l₂ =>
    obtain rfl : v = n := by simpa using hn
    have hring' := h'.ring
    rw [Links.coe_cons_append, List.cons_append] at hring'
    have hpick := Queue.find?_getD_eq_iff (p := k.Candidate (.hdr (.ready q))) h'.nodup
    rw [h'.resumes_iff hcursor' hring', h'.running_expire]
    simp only [reduceCtorEq, false_or, List.take_succ_cons, List.take_zero, List.drop_succ_cons,
      List.drop_zero]
    -- The candidates are the same, as no state has changed.
    exact hpick

/-- After start-up, the thread that is not running is right before the running one in the ring. -/
theorem keepsTurns_idle :
    ∃ k₀ k', boot (fun _ => 0) noThread (fun _ => 0) = some k₀ ∧ k₀.remove (.thread 0) = some k' ∧
      KeepsTurns k₀ k' (.thread 0) := by
  have hrun : ((boot (fun _ => 0) noThread fun _ => 0).map fun k₀ =>
      decide (k₀.curThread = .thread 1 ∧ k₀.maxPrio = 0 ∧
        k₀.links.next (.thread 1) = some (.hdr (.ready 0)) ∧
        k₀.links.next (.hdr (.ready 0)) = some (.thread 0) ∧
        k₀.links.next (.thread 0) = some (.thread 1) ∧ (k₀.thr (.thread 1)).priority = 0 ∧
        (k₀.thr (.hdr (.ready 0))).totalTicks < 2 ^ 32 ∧ (k₀.thr (.thread 0)).totalTicks < 2 ^ 32 ∧
        (k₀.thr (.thread 1)).totalTicks < 2 ^ 32)) = some true := by
    decide +kernel
  obtain ⟨k₀, hboot, hrun⟩ := Option.map_eq_some_iff.1 hrun
  obtain ⟨hcur, hmax, hnext, hnext', hnext'', hprio, hhdr, h0, h1⟩ := of_decide_eq_true hrun
  obtain ⟨R, c, hb⟩ := booted_of_boot hboot
  obtain rfl : c = 1 := Node.thread.inj (hb.curThread.symm.trans hcur)
  obtain ⟨l, hl⟩ := Links.exists_coe_cons_of_mem (hprio ▸ hb.linked)
  obtain rfl : l = [.hdr (.ready 0)] ++ .thread 0 :: [] :=
    (hl ▸ hb.shape.rings.ring (.ready 0)).eq_of_isChain (by simp [hnext, hnext', hnext'']) (by simp)
  obtain ⟨k', hrem, hiff⟩ :=
    keepsTurns_remove_iff (q := 0) hb.shape hmax hcur (hprio ▸ hb.cursor) hl
    (by rw [hl]; simpa using ⟨h1, hhdr, h0⟩)
  exact ⟨k₀, k', hboot, hrem, hiff.2 (.inl rfl)⟩

/-- Fewer calls dispatch fewer threads. -/
theorem exists_dispatched_of_append {ops ops' : List Op} {xs : List Node}
    (h : k.dispatched (ops ++ ops') = some xs) : ∃ ys, k.dispatched ops = some ys ∧ ys <+: xs := by
  induction ops generalizing k xs with
  | nil => exact ⟨[], rfl, List.nil_prefix⟩
  | cons op ops ih =>
    rw [List.cons_append, dispatched] at h
    obtain ⟨k', hk', h⟩ := Option.bind_eq_some_iff.1 h
    obtain ⟨xs', hxs', h⟩ := Option.bind_eq_some_iff.1 h
    obtain ⟨ys, hys, hle⟩ := ih hxs'
    rw [dispatched, hk']
    simp only [Option.bind_eq_bind, Option.bind_some, hys, Option.some.injEq,
      exists_eq_left'] at h ⊢
    split_ifs at h ⊢ with hexp
    · exact h ▸ (List.prefix_cons_inj _).2 hle
    · exact h ▸ hle

/-- Two more threads of the same priority, `2` and `3`, go to the end of the ring, before the
    running thread `1`. When thread `0` is removed, thread `3` comes next, and thread `2` loses its
    turn. -/
theorem not_keepsTurns :
    ∃ k₀ k k', boot (fun _ => 0) noThread (fun _ => 0) = some k₀ ∧
      [Op.create, .create, .append 2, .append 3].foldlM step k₀ = some k ∧
      k.curThread = .thread 1 ∧ k.remove (.thread 0) = some k' ∧ ¬KeepsTurns k k' (.thread 0) := by
  have hrun : ((boot (fun _ => 0) noThread fun _ => 0).bind fun k₀ =>
      ([Op.create, .create, .append 2, .append 3].foldlM step k₀).bind fun k =>
        (k.remove (.thread 0)).map fun k' => decide (k.curThread = .thread 1 ∧
          k.dispatched (List.replicate 20 .tick) = some [.thread 0, .thread 2] ∧
          k'.dispatched (List.replicate 10 .tick) = some [.thread 3])) = some true := by
    decide +kernel
  obtain ⟨k₀, hboot, hrun⟩ := Option.bind_eq_some_iff.1 hrun
  obtain ⟨k, hk, hrun⟩ := Option.bind_eq_some_iff.1 hrun
  obtain ⟨k', hrem, hrun⟩ := Option.map_eq_some_iff.1 hrun
  obtain ⟨hcur, hdisp, hdisp'⟩ := of_decide_eq_true hrun
  refine ⟨k₀, k, k', hboot, hk, hcur, hrem, fun hkeep => ?_⟩
  obtain ⟨m, xs, hxs, hm⟩ := hkeep 20
  obtain rfl := Option.some.inj (hdisp.symm.trans hxs)
  -- The dispatches of ten ticks and of `m` ticks begin with different threads.
  rcases le_total m 10 with hle | hle
  · obtain ⟨d, hd⟩ := Nat.exists_eq_add_of_le hle
    rw [hd, List.replicate_add] at hdisp'
    obtain ⟨ys, hys, hpre⟩ := exists_dispatched_of_append hdisp'
    obtain rfl := Option.some.inj (hm.symm.trans hys)
    exact absurd hpre (by decide)
  · obtain ⟨d, rfl⟩ := Nat.exists_eq_add_of_le hle
    rw [List.replicate_add] at hm
    obtain ⟨ys, hys, hpre⟩ := exists_dispatched_of_append hm
    obtain rfl := Option.some.inj (hdisp'.symm.trans hys)
    exact absurd hpre (by decide)

end Kernel

end DemoOs
