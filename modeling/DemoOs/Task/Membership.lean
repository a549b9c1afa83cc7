import DemoOs.System
import DemoOs.Task.Boot

/-!
# The list a thread is in

The link of a thread is shared by the free list, the ready rings and the waiter lists, and none of
the operations that link a thread checks that it is in no list: `destroyThread` puts a thread on the
free list without taking it off its ready ring, and `allocate` on an empty free list takes the
header for a thread.

A thread is in one list, or its links are null, in every run in which threads are only linked when
they are in no list, only leave the ready ring when they are in it, and only block on a semaphore
when there is another thread to switch to (`MembershipOk`).
-/

namespace DemoOs

namespace Kernel

variable {k k' : Kernel} {R : Hdr → Cycle Node} {t u c : Tid} {p q : Prio} {σ : ℕ}

/-- The thread to switch to is in the ready ring of the highest priority. -/
def HigherLinked (k : Kernel) : Prop :=
  ∃ (p : Prio) (t : Tid), k.maxPrio = (p : ℕ) ∧ k.higherPriorityThread = some (.thread t) ∧
    k.OnList (.ready p) t

/-- The current thread is on no waiter list, and there is a thread to find. -/
def MayExpire (k : Kernel) : Prop :=
  (∀ c σ, k.curThread = .thread c → ¬k.OnList (.waiters σ) c) ∧
    ∀ p : Prio, k.maxPrio = (p : ℕ) → k.Selectable p

/-- The calls that keep threads in one list. -/
def MembershipOk (k : Kernel) : Op → Prop
  | .create => ∃ t, k.OnList .free t
  | .addThread _ _ => True
  | .destroy t => k.Unlinked t
  | .append t | .push t => (k.thr (.thread t)).state = .ready → k.Unlinked t
  | .remove t | .suspend t => k.OnlyReady t
  | .wakeup t u => (k.thr (.thread t)).state = .waiting →
    if t = u then k.Unlinked t else ∀ σ, ¬k.OnList (.waiters σ) u
  | .tick => (k.Pending → k.HigherLinked) ∧ (¬k.Pending → k.Expiring → k.MayExpire)
  -- A caller that is not switched away from goes on in the loop of `lock`, and is linked once more.
  | .lock σ => k.Blocks σ → (∀ c, k.curThread = .thread c → k.OnlyReady c) ∧ k.Pending ∧
      k.HigherLinked
  | .trylock _ | .unlock _ => True
  | .scheduleInKernel => False

/-- The invariant: threads in ready rings are ready or running, and those on waiter lists
    waiting. -/
structure Members (k : Kernel) (R : Hdr → Cycle Node) : Prop where
  shape : Shape k R
  active : ∀ ⦃t p⦄, .thread t ∈ R (.ready p) →
    (k.thr (.thread t)).state = .ready ∨ (k.thr (.thread t)).state = .running
  waiting : ∀ ⦃t σ⦄, .thread t ∈ R (.waiters σ) → (k.thr (.thread t)).state = .waiting
  curThread : ∃ c, k.curThread = .thread c
  maxPrio : ∃ q : Prio, k.maxPrio = (q : ℕ)

theorem Booted.members (h : Booted k R c) : Members k R where
  shape := h.shape
  active t p ht := by
    by_cases htc : t = c
    · exact .inr (htc ▸ h.running)
    · exact .inl (h.ready ht htc)
  waiting t σ ht := absurd ht (h.no_waiters σ t)
  curThread := ⟨c, h.curThread⟩
  maxPrio := h.higher.imp fun _ h => h.choose_spec.1

/-! ## Its preservation -/

theorem Members.sameSched (h : Members k R) (hsame : SameSched k' k) : Members k' R where
  shape := hsame.shape h.shape
  active t p ht := by rw [hsame.state]; exact h.active ht
  waiting t σ ht := by rw [hsame.state]; exact h.waiting ht
  curThread := hsame.curThread ▸ h.curThread
  maxPrio := hsame.maxPrio ▸ h.maxPrio

theorem Members.setVal (h : Members k R) (v : ℕ → ℤ) : Members { k with val := v } R where
  shape := h.shape.congr rfl rfl fun _ => rfl
  active := h.active
  waiting := h.waiting
  curThread := h.curThread
  maxPrio := h.maxPrio

/-- Threads on no waiter list may become ready. -/
theorem Members.setReady (h : Members k R) (ht : ∀ σ, .thread t ∉ R (.waiters σ)) :
    Members (k.setState (.thread t) .ready) R where
  shape := h.shape.setState _ _
  active u p hu := by
    rw [setState_state]
    split_ifs
    exacts [.inl rfl, h.active hu]
  waiting u σ hu := by
    rw [setState_state]
    split_ifs with hut
    · exact absurd (hut ▸ hu) (ht σ)
    · exact h.waiting hu
  curThread := h.curThread
  maxPrio := h.maxPrio

/-- A thread leaves its list, and its state may change. -/
theorem Members.leave {R' : Hdr → Cycle Node} (h : Members k R) (hs : Shape k' R')
    (hmem : ∀ j u, .thread u ∈ R' j → .thread u ∈ R j ∧ u ≠ t)
    (hstate : ∀ u, u ≠ t → (k'.thr (.thread u)).state = (k.thr (.thread u)).state)
    (hcur : k'.curThread = k.curThread) (hmax : k'.maxPrio = k.maxPrio) : Members k' R' where
  shape := hs
  active u p hu := by
    obtain ⟨hu, hut⟩ := hmem _ _ hu
    rw [hstate u hut]
    exact h.active hu
  waiting u σ hu := by
    obtain ⟨hu, hut⟩ := hmem _ _ hu
    rw [hstate u hut]
    exact h.waiting hu
  curThread := hcur ▸ h.curThread
  maxPrio := hmax ▸ h.maxPrio

theorem Members.create (h : Members k R) (ht : .thread t ∈ R .free) :
    ∃ k' x R', k.createThread = some (k', x) ∧ Members k' R' := by
  obtain ⟨u, L', R', hu, hcreate, hs', hmem⟩ := h.shape.createThread ht
  refine ⟨_, _, R', hcreate, h.leave (t := u) hs' (fun j v hv => ?_) (fun v hvu => ?_) rfl rfl⟩
  · simpa using (hmem _ _).1 hv
  · rw [used_state, if_neg (by simpa using hvu)]

theorem Members.enqueue {insert : Links Node → Node → Node → Option (Links Node)}
    (h : Members k R) (hins : Insertion insert)
    (hfree : (k.thr (.thread t)).state = .ready → ∀ h, .thread t ∉ R h) :
    ∃ k' R', Kernel.enqueue insert k (.thread t) = some k' ∧ Members k' R' := by
  by_cases hready : (k.thr (.thread t)).state = .ready
  swap
  · exact ⟨k, R, enqueue_of_not_ready hready, h⟩
  obtain ⟨L', R', henq, hs', -, hmem⟩ := h.shape.enqueue hins hready (hfree hready)
  refine ⟨_, R', henq, ⟨hs', fun u p hu => ?_, fun u σ hu => ?_, ?_,
    exists_raise_maxPrio h.maxPrio⟩⟩
  · rw [raise_thr]
    rcases (hmem _ _).1 hu with hu | ⟨-, hu⟩
    exacts [h.active hu, .inl (hu ▸ hready)]
  · rw [raise_thr]
    rcases (hmem _ _).1 hu with hu | ⟨hr, -⟩
    · exact h.waiting hu
    · cases hr
  · rw [raise_curThread]
    exact h.curThread

theorem Members.wakeup (h : Members k R)
    (hok : (k.thr (.thread t)).state = .waiting →
      if t = u then ∀ j, .thread t ∉ R j else ∀ σ, .thread u ∉ R (.waiters σ)) :
    ∃ k' R', k.wakeup (.thread t) (.thread u) = some k' ∧ Members k' R' := by
  by_cases hwait : (k.thr (.thread t)).state = .waiting
  swap
  · exact ⟨k, R, wakeup_of_not_waiting hwait _, h⟩
  have hok := hok hwait
  by_cases htu : t = u
  · subst htu
    rw [if_pos rfl] at hok
    obtain ⟨k', R', henq, hk'⟩ := (h.setReady fun σ => hok (.waiters σ)).enqueue (t := t) (.inr rfl)
      fun _ => hok
    exact ⟨k', R', (if_pos hwait).trans henq, hk'⟩
  · rw [if_neg htu] at hok
    exact ⟨_, R, wakeup_of_ne hwait htu, h.setReady hok⟩

theorem Members.remove (h : Members k R) (ht : .thread t ∈ R (.ready p)) :
    ∃ k' R', k.remove (.thread t) = some k' ∧ Members k' R' := by
  obtain ⟨L', R', n, hrem, hs', -, hmem⟩ := h.shape.remove ht
  refine ⟨_, R', hrem, h.leave (t := t) hs' (fun j v hv => ?_) (fun _ _ => rfl) rfl rfl⟩
  simpa using (hmem _ _).1 hv

theorem Members.suspend (h : Members k R) (ht : .thread t ∈ R (.ready p)) :
    ∃ k' R', k.suspend (.thread t) = some k' ∧ Members k' R' := by
  obtain ⟨L', R', n, hsusp, hs', -, hmem⟩ := h.shape.suspend ht
  refine ⟨_, R', hsusp, h.leave (t := t) hs' (fun j v hv => ?_) (fun v hvt => ?_) rfl rfl⟩
  · simpa using (hmem _ _).1 hv
  · rw [setState_state, if_neg (by simpa using hvt)]
    rfl

/-- A thread in no list is destroyed, and goes to the free list. -/
theorem Members.destroy (h : Members k R) (ht : ∀ j, .thread t ∉ R j)
    (hk' : k.destroyThread (.thread t) = some k') : ∃ R', Members k' R' := by
  obtain ⟨pid, -, hk'⟩ := Option.bind_eq_some_iff.1 hk'
  obtain ⟨P, -, hk'⟩ := Option.bind_eq_some_iff.1 hk'
  obtain ⟨k₁, R', hdealloc, hs', hmem, hthr, hcur, hmax, -⟩ :=
    (h.shape.congr rfl rfl fun _ => rfl :
      Shape { k with threadCounter := _, procLinks := P } R).deallocate ht
  obtain rfl : k₁ = k' := Option.some.inj (hdealloc.symm.trans hk')
  have hlinked : ∀ {j u}, .thread u ∈ R j →
      (k₁.thr (.thread u)).state = (k.thr (.thread u)).state := by
    intro j u hu
    rw [hthr, setState_state, if_neg (by rintro ⟨⟩; exact ht j hu)]
  refine ⟨R', ⟨hs', fun u p hu => ?_, fun u σ hu => ?_, hcur ▸ h.curThread, hmax ▸ h.maxPrio⟩⟩
  · rcases (hmem _ _).1 hu with hu | ⟨hr, -⟩
    · rw [hlinked hu]
      exact h.active hu
    · cases hr
  · rcases (hmem _ _).1 hu with hu | ⟨hr, -⟩
    · rw [hlinked hu]
      exact h.waiting hu
    · cases hr

theorem Members.charge (h : Members k R) (n : ℕ) : Members (k.charge n) R where
  shape := h.shape.charge n
  active t p ht := by rw [charge_state]; exact h.active ht
  waiting t σ ht := by rw [charge_state]; exact h.waiting ht
  curThread := h.curThread
  maxPrio := h.maxPrio

theorem Members.setCursor (h : Members k R) {x : Node} (hx : x ∈ R (.ready p)) :
    Members (k.setCursor p x) R :=
  ⟨h.shape.setCursor hx, h.active, h.waiting, h.curThread, h.maxPrio⟩

theorem Members.preempt (h : Members k R) (ht : .thread t ∈ R (.ready p)) :
    Members (k.preempt p (.thread t)) R :=
  ⟨h.shape.preempt ht, h.active, h.waiting, ⟨t, rfl⟩, h.maxPrio⟩

theorem Members.dispatch (h : Members k R) (ht : .thread t ∈ R (.ready p))
    (hcur : ∀ c σ, k.curThread = .thread c → .thread c ∉ R (.waiters σ)) :
    Members (k.dispatch (.thread t)) R where
  shape := h.shape.dispatch _
  active u r hu := by
    rw [dispatch_state]
    split_ifs
    exacts [.inr rfl, .inl rfl, h.active hu]
  waiting u σ hu := by
    rw [dispatch_state, if_neg, if_neg]
    · exact h.waiting hu
    · exact fun huc => hcur u σ huc.symm hu
    · rintro ⟨⟩
      cases h.shape.rings.disjoint ht hu
  curThread := ⟨t, rfl⟩
  maxPrio := h.maxPrio

/-- A pending thread is in the ready ring of its priority. -/
theorem HigherLinked.exists_mem (h : k.HigherLinked) (hs : Shape k R) (hq : k.maxPrio = (q : ℕ)) :
    ∃ t, .thread t ∈ R (.ready q) ∧ k.higherPriorityThread = some (.thread t) := by
  obtain ⟨p, t, hp, hhigh, ht⟩ := h
  obtain rfl : p = q := Fin.ext (by omega)
  exact ⟨t, hs.onList_iff.1 ht, hhigh⟩

/-- A tick. -/
theorem Members.tick (h : Members k R) (hq : k.maxPrio = (q : ℕ))
    (hhigh : k.Pending → ∃ t, .thread t ∈ R (.ready q) ∧
      k.higherPriorityThread = some (.thread t))
    (hexp : ¬k.Pending → k.Expiring → k.MayExpire) :
    ∃ k' b, k.scheduleInInterrupt = some (k', b) ∧ Members k' R := by
  obtain ⟨n, hcases⟩ := h.shape.scheduleInInterrupt hq fun hpend => by
    obtain ⟨t, ht⟩ := hhigh hpend
    exact ⟨_, ht⟩
  rcases hcases with ⟨hpend, x, hx, hhx, htick⟩ | ⟨-, -, htick⟩ | ⟨hpend, hexp', x, hx,
    hfound, htick⟩
  · obtain ⟨t, -, hht⟩ := hhigh hpend
    obtain rfl : x = .thread t := Option.some.inj (hhx.symm.trans hht)
    exact ⟨_, true, htick, (h.charge n).preempt hx⟩
  · exact ⟨_, false, htick, h.charge n⟩
  · obtain ⟨hcur, hsel⟩ := hexp hpend hexp'
    obtain ⟨t, rfl⟩ := hfound.exists_thread h.shape (hsel q hq)
    split_ifs at htick with htc
    · exact ⟨_, false, htick, (h.charge n).setCursor hx⟩
    · exact ⟨_, true, htick, ((h.charge n).setCursor hx).dispatch hx fun c σ hc =>
        mt h.shape.onList_iff.2 (hcur c σ hc)⟩

/-- The current thread, in its ready ring, blocks on a semaphore while another one is pending. -/
theorem Members.lock (h : Members k R) (hcur : k.curThread = .thread c)
    (hc : .thread c ∈ R (.ready p)) (hblocks : k.Blocks σ) (hpend : k.Pending)
    (hhigh : k.HigherLinked) :
    ∃ k' b R', k.lock σ = some (k', true, b) ∧ Members k' R' := by
  obtain ⟨q, hq⟩ := h.maxPrio
  obtain ⟨L', R', n, hlock, hs', -, hmem⟩ := h.shape.lockSection hcur hc hblocks
  have hstate : ∀ u, ((k.blocked σ c p n L').thr (.thread u)).state =
      if u = c then .waiting else (k.thr (.thread u)).state := by
    intro u
    rw [blocked, setState_state]
    simp only [Node.thread.injEq]
    rfl
  have hk₁ : Members (k.blocked σ c p n L') R' := by
    refine ⟨hs', fun u r hu => ?_, fun u τ hu => ?_, h.curThread, h.maxPrio⟩
    · rcases (hmem _ _).1 hu with ⟨hu, huc⟩ | ⟨hr, -⟩
      · rw [hstate, if_neg (by simpa using huc)]
        exact h.active hu
      · cases hr
    · rw [hstate]
      split_ifs with huc
      · rfl
      · rcases (hmem _ _).1 hu with ⟨hu, -⟩ | ⟨-, hu⟩
        · exact h.waiting hu
        · exact absurd (Node.thread.inj hu) huc
  -- The pending thread has a higher priority than the caller, and is still in its ready ring.
  have hhigh' : ∃ t, .thread t ∈ R' (.ready q) ∧ k.higherPriorityThread = some (.thread t) := by
    obtain ⟨t, ht, hht⟩ := hhigh.exists_mem h.shape hq
    refine ⟨t, (hmem _ _).2 (.inl ⟨ht, ?_⟩), hht⟩
    rintro ⟨⟩
    rw [Pending, hcur, h.shape.prio ht, hq] at hpend
    exact lt_irrefl _ hpend
  obtain ⟨k', b, htick, hk'⟩ := hk₁.tick hq (fun _ => hhigh')
    fun hnot => absurd ((blocked_pending_iff ..).2 hpend) hnot
  refine ⟨k', b, R', ?_, hk'⟩
  simp only [Kernel.lock, hlock, htick, Option.bind_eq_bind, Option.bind_some, if_pos]

theorem Members.wakeOne (h : Members k R) (ht : .thread t ∈ R (.waiters σ)) :
    ∃ k' R', k.wakeOne σ (.thread t) = some k' ∧ Members k' R' := by
  obtain ⟨L', R', hL', hs', hmem⟩ := h.shape.unlink ht (by simp)
  have hk₁ : Members { k.incVal σ with links := L' } R' :=
    h.leave (t := t) (hs'.congr rfl rfl fun _ => rfl) (fun j u hu => by simpa using (hmem _ _).1 hu)
      (fun _ _ => rfl) rfl rfl
  obtain ⟨k', R'', hwake, hk'⟩ := hk₁.wakeup (t := t) (u := t) fun _ => by
    rw [if_pos rfl]
    exact fun j hj => ((hmem _ _).1 hj).2 rfl
  exact ⟨k', R'', by rw [Kernel.wakeOne, hL']; exact hwake, hk'⟩

theorem Members.unlock (h : Members k R) : ∃ k' R', k.unlock σ = some k' ∧ Members k' R' := by
  obtain ⟨k', hk', ⟨R', h'⟩, -⟩ := unlock_rule (I := fun k => ∃ R, Members k R)
    (fun ⟨R, h⟩ => ⟨R, h.shape⟩) (fun {k₁ k₂ t} ⟨R, h⟩ ht hwake => by
      obtain ⟨k', R', hk', h'⟩ := h.wakeOne (h.shape.onList_iff.1 ht)
      obtain rfl : k' = k₂ := Option.some.inj (hk'.symm.trans hwake)
      exact ⟨R', h'⟩) ⟨R, h.setVal _⟩
  exact ⟨k', R', hk', h'⟩

theorem Members.step {op : Op} (h : Members k R) (hok : k.MembershipOk op)
    (hstep : k.step op = some k') : ∃ R', Members k' R' := by
  -- In each case the condition says that what is linked anew is in no list.
  cases op with
  | create =>
    obtain ⟨t, ht⟩ := hok
    obtain ⟨k₁, x, R', hcreate, hk₁⟩ := h.create (h.shape.onList_iff.1 ht)
    rw [Kernel.step, hcreate] at hstep
    exact Option.some.inj hstep ▸ ⟨R', hk₁⟩
  | addThread pid t => exact ⟨R, h.sameSched (sameSched_of_addThread hstep)⟩
  | destroy t => exact h.destroy (h.shape.unlinked_iff.1 hok) hstep
  | append t =>
    obtain ⟨k₁, R', happ, hk₁⟩ := h.enqueue (.inr rfl) fun hr => h.shape.unlinked_iff.1 (hok hr)
    exact Option.some.inj (happ.symm.trans hstep) ▸ ⟨R', hk₁⟩
  | push t =>
    obtain ⟨k₁, R', happ, hk₁⟩ := h.enqueue (.inl rfl) fun hr => h.shape.unlinked_iff.1 (hok hr)
    exact Option.some.inj (happ.symm.trans hstep) ▸ ⟨R', hk₁⟩
  | remove t =>
    -- `remove` unlinks wherever the thread is: that it is a ready ring is the condition.
    obtain ⟨p, ht⟩ := h.shape.mem_ready_of_suspend hok fun hnone => by
      rw [Kernel.suspend, show k.remove (.thread t) = _ from hstep] at hnone
      cases hnone
    obtain ⟨k₁, R', hrem, hk₁⟩ := h.remove ht
    exact Option.some.inj (hrem.symm.trans hstep) ▸ ⟨R', hk₁⟩
  | suspend t =>
    obtain ⟨p, ht⟩ := h.shape.mem_ready_of_suspend hok
      (by rw [show k.suspend (.thread t) = _ from hstep]; simp)
    obtain ⟨k₁, R', hsusp, hk₁⟩ := h.suspend ht
    exact Option.some.inj (hsusp.symm.trans hstep) ▸ ⟨R', hk₁⟩
  | wakeup t u =>
    obtain ⟨k₁, R', hwake, hk₁⟩ := h.wakeup (t := t) (u := u) fun hw => by
      simpa only [h.shape.unlinked_iff, h.shape.onList_iff] using hok hw
    exact Option.some.inj (hwake.symm.trans hstep) ▸ ⟨R', hk₁⟩
  | tick =>
    obtain ⟨q, hq⟩ := h.maxPrio
    obtain ⟨k₁, b, htick, hk₁⟩ := h.tick hq (fun hp => (hok.1 hp).exists_mem h.shape hq) hok.2
    rw [Kernel.step, htick] at hstep
    exact Option.some.inj hstep ▸ ⟨R, hk₁⟩
  | lock σ =>
    -- Only a caller that finds no permit is moved to another list.
    by_cases hblocks : k.Blocks σ
    · obtain ⟨honly, hpend, hhigh⟩ := hok hblocks
      obtain ⟨c, hcur⟩ := h.curThread
      obtain ⟨p, hc⟩ := h.shape.mem_ready_of_lock hcur (honly c hcur) hblocks fun hnone => by
        rw [Kernel.step, hnone] at hstep
        cases hstep
      obtain ⟨k₁, b, R', hlock, hk₁⟩ := h.lock hcur hc hblocks hpend hhigh
      rw [Kernel.step, hlock] at hstep
      exact Option.some.inj hstep ▸ ⟨R', hk₁⟩
    · rw [Kernel.step, Kernel.lock, lockSection_of_nonneg (not_lt.1 hblocks)] at hstep
      exact Option.some.inj hstep ▸ ⟨R, h.setVal _⟩
  | trylock σ =>
    obtain ⟨v, hv⟩ := exists_trylock_eq k σ
    rw [Kernel.step, hv] at hstep
    exact Option.some.inj hstep ▸ ⟨R, h.setVal v⟩
  | unlock σ =>
    obtain ⟨k₁, R', hunlock, hk₁⟩ := h.unlock (σ := σ)
    exact Option.some.inj (hunlock.symm.trans hstep) ▸ ⟨R', hk₁⟩
  | scheduleInKernel => exact hok.elim

/-! ## Runs -/

/-- Every thread is in one list, and in the right state for it, or in none with null links; the
    lists are well formed. -/
structure WellListed (k : Kernel) : Prop where
  oneList : ∀ t, (∃! h, k.OnList h t) ∨
    k.Unlinked t ∧ k.links.next (.thread t) = none ∧ k.links.prev (.thread t) = none
  ready : ∀ t p, k.OnList (.ready p) t → (k.thr (.thread t)).priority = p ∧
    ((k.thr (.thread t)).state = .ready ∨ (k.thr (.thread t)).state = .running)
  waiting : ∀ t σ, k.OnList (.waiters σ) t → (k.thr (.thread t)).state = .waiting
  inverse : ∀ x y, k.links.next x = some y ↔ k.links.prev y = some x
  header : ∀ h x, k.links.Reaches (.hdr h) x → k.links.Reaches x (.hdr h)

theorem Members.wellListed (h : Members k R) : k.WellListed where
  oneList t := by
    by_cases ht : ∃ j, .thread t ∈ R j
    · obtain ⟨j, hj⟩ := ht
      exact .inl ⟨j, h.shape.onList_iff.2 hj, fun i hi =>
        h.shape.rings.disjoint (h.shape.onList_iff.1 hi) hj⟩
    · have hno : ∀ j, .thread t ∉ R j := fun j hj => ht ⟨j, hj⟩
      exact .inr ⟨h.shape.unlinked_iff.2 hno, h.shape.rings.null hno⟩
  ready t p ht :=
    have ht := h.shape.onList_iff.1 ht
    ⟨h.shape.prio ht, h.active ht⟩
  waiting t σ ht := h.waiting (h.shape.onList_iff.1 ht)
  inverse x y := h.shape.rings.next_eq_some_iff
  header j x hx := by
    have hring := h.shape.rings.ring j
    exact (hring.reaches_iff ((hring.reaches_iff (h.shape.header j)).1 hx)).2 (h.shape.header j)

variable {k₀ : Kernel} {prio : Tid → Prio} {mem : Hdr → Thread} {val : ℕ → ℤ}

theorem wellListed_of_run (hboot : boot prio mem val = some k₀)
    (hrun : Run step MembershipOk k₀ k) : k.WellListed := by
  obtain ⟨R, c, hbooted⟩ := booted_of_boot hboot
  obtain ⟨R', h⟩ := hrun.invariant (I := fun k => ∃ R, Members k R)
    (fun ⟨_, h⟩ hok hstep => h.step hok hstep) ⟨R, hbooted.members⟩
  exact h.wellListed

/-- The second idle thread blocks while the first one is pending, and is woken by it. -/
theorem wellListed_after_unlock :
    ∃ k₀ k₁ k₂, boot (fun t => if t = 0 then 5 else 0) noThread (fun _ => 0) = some k₀ ∧
      k₀.step (.lock 0) = some k₁ ∧ k₁.step (.unlock 0) = some k₂ ∧
      k₁.OnList (.waiters 0) 1 ∧ k₁.WellListed ∧ k₂.OnList (.ready 0) 1 ∧ k₂.WellListed := by
  have hrun : ((boot (fun t => if t = 0 then 5 else 0) noThread fun _ => 0).bind fun k₀ =>
      (k₀.step (.lock 0)).bind fun k₁ => (k₁.step (.unlock 0)).map fun k₂ => decide
        (k₀.curThread = .thread 1 ∧ k₀.Pending ∧
          k₁.links.next (.hdr (.waiters 0)) = some (.thread 1) ∧
          k₂.links.next (.hdr (.ready 0)) = some (.thread 1))) = some true := by
    decide +kernel
  obtain ⟨k₀, hboot, hrun⟩ := Option.bind_eq_some_iff.1 hrun
  obtain ⟨k₁, hk₁, hrun⟩ := Option.bind_eq_some_iff.1 hrun
  obtain ⟨k₂, hk₂, hfields⟩ := Option.map_eq_some_iff.1 hrun
  obtain ⟨hcur, hpend, hwaits, hready⟩ := of_decide_eq_true hfields
  obtain ⟨R, c, hb⟩ := booted_of_boot hboot
  have hlock : k₀.MembershipOk (.lock 0) := by
    refine fun _ => ⟨fun c' hc' => ?_, hpend, ?_⟩
    · obtain rfl : c = c' := Node.thread.inj (hb.curThread.symm.trans hc')
      exact hb.shape.onlyReady_iff.2 fun j hj => ⟨_, hb.shape.rings.disjoint hj hb.linked⟩
    · obtain ⟨q, t, hq, -, hhigh, ht⟩ := hb.higher
      exact ⟨q, t, hq, hhigh, hb.shape.onList_iff.2 ht⟩
  have hrun₁ : Run step MembershipOk k₀ k₁ := Run.refl.tail hlock hk₁
  have hrun₂ : Run step MembershipOk k₀ k₂ := hrun₁.tail (i := .unlock 0) trivial hk₂
  exact ⟨k₀, k₁, k₂, hboot, hk₁, hk₂, .single hwaits, wellListed_of_run hboot hrun₁,
    .single hready, wellListed_of_run hboot hrun₂⟩

/-- A thread of priority `5` is linked and then destroyed: it is stopped and yet in its ready ring,
    which now leads to the free list. -/
theorem not_wellListed_of_destroy :
    ∃ k₀ k, boot (fun t => if t = 2 then 5 else 0) noThread (fun _ => 0) = some k₀ ∧
      execute step (fun _ _ => True) k₀ [.create, .addThread 0 2, .append 2, .destroy 2] = some k ∧
      k.OnList (.ready 5) 2 ∧ (k.thr (.thread 2)).state = .stopped ∧
      k.links.Reaches (.hdr (.ready 5)) (.hdr .free) ∧ ¬k.WellListed := by
  have hrun : ((boot (fun t => if t = 2 then 5 else 0) noThread fun _ => 0).bind fun k₀ =>
      (execute step (fun _ _ => True) k₀ [.create, .addThread 0 2, .append 2, .destroy 2]).map
        fun k => (k.links.next (.hdr (.ready 5)), k.links.next (.thread 2),
          (k.thr (.thread 2)).state)) = some (some (.thread 2), some (.hdr .free), .stopped) := by
    decide +kernel
  obtain ⟨k₀, hboot, hrun⟩ := Option.bind_eq_some_iff.1 hrun
  obtain ⟨k, hk, hfields⟩ := Option.map_eq_some_iff.1 hrun
  simp only [Prod.mk.injEq] at hfields
  obtain ⟨hready, hfree, hstopped⟩ := hfields
  refine ⟨k₀, k, hboot, hk, .single hready, hstopped, .tail (.single hready) hfree, fun h => ?_⟩
  have hstate := (h.ready 2 5 (.single hready)).2
  rw [hstopped] at hstate
  rcases hstate with hstate | hstate <;> cases hstate

end Kernel

end DemoOs
