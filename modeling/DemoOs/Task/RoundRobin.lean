import DemoOs.System
import DemoOs.Lib.RoundRobin
import DemoOs.Task.Boot

/-!
# Round-robin scheduling

Of the threads of the highest priority, the scheduler dispatches one after the other: their ready
ring implements a circular queue (`Queue`). The cursor of the ring is the running thread, the
threads after it are the others in their order, and the header may be anywhere between them
(`Kernel.RoundRobin`). A tick at the end of a time slice is the expiry of a turn, and `push` and
`append` are the operations of the queue of these names (`RoundRobin.step`), so that the threads
dispatched are those of the queue (`dispatched_eq`).
-/

namespace DemoOs

namespace Kernel

variable {k k' : Kernel} {R : Hdr → Cycle Node} {t c : Tid} {q : Prio} {l : List Node}
  {Q : Queue Tid}

/-- The ready ring of the priority `q`, with the nodes `l` after its cursor, implements the queue
    `Q`. -/
structure RoundRobin (k : Kernel) (R : Hdr → Cycle Node) (q : Prio) (l : List Node)
    (Q : Queue Tid) : Prop where
  shape : Shape k R
  maxPrio : k.maxPrio = (q : ℕ)
  curThread : k.curThread = .thread Q.running
  cursor : k.curNodeInGroup q = some (.thread Q.running)
  ring : R (.ready q) = ↑(.thread Q.running :: l)
  others : l.filter (· ≠ .hdr (.ready q)) = Q.others.map .thread
  ready : ∀ t ∈ Q.others, (k.thr (.thread t)).state = .ready

/-- Ticks, and calls that link new threads of the priority `q`. -/
def Fresh (q : Prio) (k : Kernel) : Op → Prop
  | .tick => True
  | .append t | .push t =>
    k.Unlinked t ∧ (k.thr (.thread t)).state = .ready ∧ (k.thr (.thread t)).priority = q
  | _ => False

/-- What a call is to the queue. -/
def event (k : Kernel) : Op → List (Queue.Event Tid)
  | .tick => if k.Expiring then [.expire] else []
  | .append t => [.append t]
  | .push t => [.push t]
  | _ => []

/-- What the calls are to the queue. -/
def events (k : Kernel) : List Op → Option (List (Queue.Event Tid))
  | [] => some []
  | op :: ops => do
    let k' ← k.step op
    let es ← k'.events ops
    some (k.event op ++ es)

/-- The threads dispatched at the ends of the time slices. -/
def dispatched (k : Kernel) : List Op → Option (List Node)
  | [] => some []
  | op :: ops => do
    let k' ← k.step op
    let xs ← k'.dispatched ops
    some (if op = .tick ∧ k.Expiring then k'.curThread :: xs else xs)

/-! ## Turns -/

/-- The threads of the ready ring of the priority `q`, the highest one, take turns as in the queue
    `Q`: after the running thread, the ring has the nodes `l`, the Ready threads of which are the
    others of the queue. The cursor and the other threads of the ring may be any. -/
structure Turning (k : Kernel) (R : Hdr → Cycle Node) (q : Prio) (l : List Node)
    (Q : Queue Tid) : Prop where
  shape : Shape k R
  maxPrio : k.maxPrio = (q : ℕ)
  curThread : k.curThread = .thread Q.running
  ring : R (.ready q) = ↑(.thread Q.running :: l)
  others : l.filter (k.Candidate (.hdr (.ready q))) = Q.others.map .thread

/-- The thread whose turn it is next is found from where the cursor is. -/
structure Resumes (k : Kernel) (R : Hdr → Cycle Node) (q : Prio) (l : List Node)
    (Q : Queue Tid) : Prop extends Turning k R q l Q where
  pick : ∃ u m, k.curNodeInGroup q = some u ∧ R (.ready q) = ↑(u :: m : List Node) ∧
    (m.find? (k.Candidate (.hdr (.ready q)))).getD u = .thread Q.expire.running

theorem Turning.mem (h : Turning k R q l Q) : .thread Q.running ∈ R (.ready q) := by
  rw [h.ring]
  simp

/-- No thread is pending, as the running one has the highest priority. -/
theorem Turning.not_pending (h : Turning k R q l Q) : ¬k.Pending := by
  rw [Pending, h.curThread, h.maxPrio, h.shape.prio h.mem]
  exact lt_irrefl _

theorem Turning.nodup (h : Turning k R q l Q) : (.thread Q.running :: l : List Node).Nodup :=
  Cycle.nodup_coe_iff.1 (h.ring ▸ (h.shape.rings.ring (.ready q)).nodup)

theorem Turning.nodup_elems (h : Turning k R q l Q) : (Q.running :: Q.others).Nodup := by
  obtain ⟨hc, hl⟩ := List.nodup_cons.1 h.nodup
  refine List.nodup_cons.2 ⟨fun hmem => hc (List.mem_of_mem_filter
    (p := k.Candidate (.hdr (.ready q))) ?_),
      List.Nodup.of_map Node.thread (h.others ▸ hl.filter _)⟩
  rw [h.others]
  exact List.mem_map_of_mem hmem

theorem charge_candidate (k : Kernel) (n : ℕ) : (k.charge n).Candidate = k.Candidate := by
  funext header x
  simp [Candidate]

theorem Turning.charge (h : Turning k R q l Q) (n : ℕ) : Turning (k.charge n) R q l Q :=
  ⟨h.shape.charge n, h.maxPrio, h.curThread, h.ring, by rw [charge_candidate]; exact h.others⟩

theorem Resumes.charge (h : Resumes k R q l Q) (n : ℕ) : Resumes (k.charge n) R q l Q :=
  ⟨h.toTurning.charge n, by rw [charge_candidate]; exact h.pick⟩

/-- The next turn is that of the first Ready thread after the running one. -/
theorem Turning.running_expire (h : Turning k R q l Q) :
    .thread Q.expire.running =
      (l.find? (k.Candidate (.hdr (.ready q)))).getD (.thread Q.running) := by
  rw [← List.head?_filter, h.others]
  obtain ⟨c, _ | ⟨t, ts⟩⟩ := Q <;> rfl

/-- With the cursor at the running thread, `findNextThread` finds the thread whose turn it is. -/
theorem Turning.resumes (h : Turning k R q l Q)
    (hcursor : k.curNodeInGroup q = some (.thread Q.running)) : Resumes k R q l Q :=
  ⟨h, _, l, hcursor, h.ring, h.running_expire.symm⟩

/-- The end of a time slice, from any cursor. -/
theorem Turning.scheduleInInterrupt_expiring {u : Node} {m : List Node} (h : Turning k R q l Q)
    (hexp : k.Expiring) (hcursor : k.curNodeInGroup q = some u) (hring : R (.ready q) = ↑(u :: m)) :
    let x := (m.find? (k.Candidate (.hdr (.ready q)))).getD u
    k.scheduleInInterrupt =
      if x = k.curThread then some ((k.charge 0).setCursor q x, false)
      else some (((k.charge 0).setCursor q x).dispatch x, true) := by
  have hfind := (h.charge 0).shape.findNextThread_eq h.maxPrio hcursor hring
  rw [charge_candidate] at hfind
  dsimp only
  rw [scheduleInInterrupt_eq, if_neg h.not_pending, if_pos hexp, hfind]
  rfl

/-- The next thread of the ring becomes the running one. The nodes from the cursor to it, which are
    not Ready threads, go to the end with the one that was running. -/
theorem Turning.dispatch {ts : List Tid} (h : Turning k R q l ⟨c, t :: ts⟩) :
    ∃ l', Turning ((k.setCursor q (.thread t)).dispatch (.thread t)) R q l' ⟨t, ts ++ [c]⟩ := by
  obtain ⟨s₁, s₂, rfl, hs₁, -, hs₂⟩ := List.filter_eq_cons_iff.1 h.others
  have hring : R (.ready q) = ↑(.thread t :: (s₂ ++ .thread c :: s₁) : List Node) := by
    rw [h.ring, Links.coe_cons_append]
    rfl
  have ht : .thread t ∈ R (.ready q) := by
    rw [hring]
    simp
  have hnd := h.nodup
  simp only [List.nodup_cons, List.nodup_append, List.mem_append, List.mem_cons, not_or] at hnd
  -- Only the two threads change their states.
  have hcand : ∀ x, x ≠ .thread t → x ≠ .thread c →
      ((k.setCursor q (.thread t)).dispatch (.thread t)).Candidate (.hdr (.ready q)) x =
        k.Candidate (.hdr (.ready q)) x := fun x hxt hxc => by
    simp [Candidate, h.curThread, hxt, hxc]
  refine ⟨s₂ ++ .thread c :: s₁, (h.shape.setCursor ht).dispatch _, h.maxPrio, rfl, hring, ?_⟩
  rw [List.filter_append, List.map_append, ← hs₂]
  congr 1
  · refine List.filter_congr fun x hx => hcand x ?_ ?_
    · rintro rfl
      exact hnd.2.2.1.1 hx
    · rintro rfl
      exact hnd.1.2.2 hx
  · have hc : ((k.setCursor q (.thread t)).dispatch (.thread t)).Candidate (.hdr (.ready q))
        (.thread c) := by
      simp only [Candidate, dispatch_state, setCursor_curThread, h.curThread, if_neg hnd.1.2.1]
      simp
    rw [List.filter_cons_of_pos hc, List.filter_eq_nil_iff.2 fun x hx => ?_]
    · rfl
    · rw [hcand x]
      · exact hs₁ x hx
      · rintro rfl
        exact hnd.2.2.2 _ hx _ (.inl rfl) rfl
      · rintro rfl
        exact hnd.1.1 hx

/-- The end of a time slice. -/
theorem Resumes.expire (h : Resumes k R q l Q) (hexp : k.Expiring) :
    ∃ k' b l', k.scheduleInInterrupt = some (k', b) ∧ Turning k' R q l' Q.expire ∧
      k'.curNodeInGroup q = some (.thread Q.expire.running) ∧
      ∀ y, (k'.thr y).totalTicks = (k.thr y).totalTicks := by
  have h₀ := h.charge 0
  obtain ⟨u, m, hcursor, hring, hpick⟩ := h.pick
  have htick := h.scheduleInInterrupt_expiring hexp hcursor hring
  simp only [hpick] at htick
  obtain ⟨c, _ | ⟨t, ts⟩⟩ := Q
  · rw [Queue.expire_nil, h.curThread, if_pos rfl] at htick
    exact ⟨_, false, l, htick,
      ⟨h₀.shape.setCursor h.mem, h.maxPrio, h.curThread, h.ring, h₀.others⟩,
      by simp, by simp⟩
  · have htc : t ≠ c := by
      have := h.nodup_elems
      simp only [List.nodup_cons, List.mem_cons, not_or] at this
      exact Ne.symm this.1.1
    rw [Queue.expire_cons, h.curThread, if_neg (by simpa using htc)] at htick
    obtain ⟨l', h'⟩ := h₀.toTurning.dispatch
    exact ⟨_, true, l', htick, h', by simp, by simp⟩

/-- A tick within a time slice. -/
theorem Turning.scheduleInInterrupt (h : Turning k R q l Q) (hexp : ¬k.Expiring) :
    k.scheduleInInterrupt = some (k.charge k.nextTicks, false) := by
  rw [scheduleInInterrupt_eq, if_neg h.not_pending, if_neg hexp]

/-! ## The simulation -/

theorem RoundRobin.turning (h : RoundRobin k R q l Q) : Turning k R q l Q := by
  refine ⟨h.shape, h.maxPrio, h.curThread, h.ring, ?_⟩
  have hcand : k.Candidate (.hdr (.ready q)) =
      fun x => decide ((k.thr x).state = .ready) && decide (x ≠ .hdr (.ready q)) := by
    funext x
    simp [Candidate, Bool.and_comm]
  rw [hcand, ← List.filter_filter, h.others, List.filter_eq_self]
  simpa using h.ready

theorem RoundRobin.resumes (h : RoundRobin k R q l Q) : Resumes k R q l Q :=
  h.turning.resumes h.cursor

/-- The nodes of the ring after the running thread, without the header. -/
theorem Turning.length_filter (h : Turning k R q l Q) :
    (l.filter (· ≠ .hdr (.ready q))).length + 1 = l.length := by
  have hhdr : .hdr (.ready q) ∈ l := by
    have := h.ring ▸ h.shape.header (.ready q)
    simpa using this
  have hlen := List.length_erase_of_mem hhdr
  rw [(List.nodup_cons.1 h.nodup).2.erase_eq_filter] at hlen
  have hpos := List.length_pos_of_mem hhdr
  simp only [ne_eq, decide_not, bne, beq_eq_decide] at hlen ⊢
  omega

/-- All threads of the ring take turns if there are as many nodes as others in the queue, and the
    header. -/
theorem Turning.roundRobin (h : Turning k R q l Q)
    (hcursor : k.curNodeInGroup q = some (.thread Q.running))
    (hlen : l.length = Q.others.length + 1) : RoundRobin k R q l Q := by
  have hsub : (l.filter (k.Candidate (.hdr (.ready q)))).Sublist (l.filter (· ≠ .hdr (.ready q))) :=
    List.monotone_filter_right l fun x hx => by
      simp only [Candidate, decide_eq_true_eq] at hx
      simpa using hx.1
  have heq := hsub.eq_of_length (by
    have := h.length_filter
    rw [h.others, List.length_map]
    omega)
  refine ⟨h.shape, h.maxPrio, h.curThread, hcursor, h.ring, heq ▸ h.others, fun t ht => ?_⟩
  have hmem := List.mem_map_of_mem (f := Node.thread) ht
  rw [← h.others] at hmem
  have := List.of_mem_filter hmem
  simp only [Candidate, decide_eq_true_eq] at this
  exact this.2

theorem RoundRobin.nodup (h : RoundRobin k R q l Q) : (Q.running :: Q.others).Nodup :=
  h.turning.nodup_elems

/-- The end of a time slice. -/
theorem RoundRobin.expire (h : RoundRobin k R q l Q) (hexp : k.Expiring) :
    ∃ k' b l', k.scheduleInInterrupt = some (k', b) ∧ RoundRobin k' R q l' Q.expire := by
  obtain ⟨k', b, l', htick, h', hcursor, -⟩ := h.resumes.expire hexp
  refine ⟨k', b, l', htick, h'.roundRobin hcursor ?_⟩
  have hlen := h.turning.length_filter
  rw [h.others, List.length_map] at hlen
  have hring : l'.length = l.length := by
    simpa using congrArg Cycle.length (h'.ring.symm.trans h.ring)
  obtain ⟨c, _ | ⟨t, ts⟩⟩ := Q
  · simpa [hring] using hlen.symm
  · simpa [hring] using hlen.symm

theorem RoundRobin.tick (h : RoundRobin k R q l Q) (hexp : ¬k.Expiring) :
    ∃ k', k.scheduleInInterrupt = some (k', false) ∧ RoundRobin k' R q l Q :=
  ⟨_, h.turning.scheduleInInterrupt hexp, h.shape.charge _, h.maxPrio, h.curThread,
    h.cursor, h.ring, h.others, fun t ht => (charge_state ..).trans (h.ready t ht)⟩

/-- A new thread is linked right before or right after the cursor. -/
theorem RoundRobin.enqueue {insert : Links Node → Node → Node → Option (Links Node)}
    {l' : List Node}
    {Q' : Queue Tid} (h : RoundRobin k R q l Q) (hready : (k.thr (.thread t)).state = .ready)
    (hprio : (k.thr (.thread t)).priority = q)
    (hins : ∃ L', insert k.links (.thread Q.running) (.thread t) = some L' ∧
      L'.Rings (Function.update R (.ready q) ↑(.thread Q.running :: l' : List Node)))
    (hmem : ∀ y, y ∈ l' ↔ y ∈ l ∨ y = .thread t) (hrun : Q'.running = Q.running)
    (hothers : l'.filter (· ≠ .hdr (.ready q)) = Q'.others.map .thread)
    (hold : ∀ u ∈ Q'.others, u ∈ Q.others ∨ u = t) :
    ∃ k' R', Kernel.enqueue insert k (.thread t) = some k' ∧ RoundRobin k' R' q l' Q' := by
  obtain ⟨L', hL', hr⟩ := hins
  have hraise : ({ k with links := L' } : Kernel).raise (.thread t) = { k with links := L' } :=
    raise_of_le (by rw [hprio, h.maxPrio])
  have hs' := h.shape.of_enqueue hr fun j y => by
    rw [hprio]
    by_cases hj : j = .ready q
    · subst hj
      rw [Function.update_self, h.ring]
      simp only [Cycle.mem_coe_iff, List.mem_cons, hmem]
      tauto
    · simp [hj]
  rw [hraise] at hs'
  refine ⟨_, _, (enqueue_eq hready (hprio ▸ h.cursor) hL').trans (congrArg some hraise), hs',
    h.maxPrio, hrun ▸ h.curThread, hrun ▸ h.cursor, ?_, hothers, fun u hu => ?_⟩
  · rw [Function.update_self, hrun]
  · rcases hold u hu with hu | rfl
    exacts [h.ready u hu, hready]

theorem RoundRobin.push (h : RoundRobin k R q l Q) (ht : Fresh q k (.push t)) :
    ∃ k' R', k.push (.thread t) = some k' ∧
      RoundRobin k' R' q (.thread t :: l) (Q.step (.push t)) := by
  have hfree := h.shape.unlinked_iff.1 ht.1
  exact h.enqueue ht.2.1 ht.2.2 (h.shape.rings.insertAfter h.ring hfree)
    (fun y => by rw [List.mem_cons, or_comm]) rfl
    (by rw [List.filter_cons_of_pos (by simp), h.others]; rfl)
    fun u hu => (List.mem_cons.1 hu).symm

theorem RoundRobin.append (h : RoundRobin k R q l Q) (ht : Fresh q k (.append t)) :
    ∃ k' R', k.append (.thread t) = some k' ∧
      RoundRobin k' R' q (l ++ [.thread t]) (Q.step (.append t)) := by
  have hfree := h.shape.unlinked_iff.1 ht.1
  refine h.enqueue ht.2.1 ht.2.2 (h.shape.rings.insertBefore h.ring hfree) (fun y => by simp) rfl ?_
    fun u hu => ?_
  · rw [List.filter_append, h.others, List.filter_cons_of_pos (by simp)]
    simp [Queue.step]
  · simpa using List.mem_append.1 hu

/-- A call is to the ring what its events are to the queue. -/
theorem RoundRobin.step {op : Op} (h : RoundRobin k R q l Q) (hop : Fresh q k op) :
    ∃ k' R' l' Q', k.step op = some k' ∧ RoundRobin k' R' q l' Q' ∧
      ∀ es, Q.dispatches (k.event op ++ es) =
        if op = .tick ∧ k.Expiring then Q'.running :: Q'.dispatches es else Q'.dispatches es := by
  cases op with
  | tick =>
    -- The tick that uses up the slice passes the processor on.
    by_cases hexp : k.Expiring
    · obtain ⟨k', b, l', htick, h'⟩ := h.expire hexp
      refine ⟨k', R, l', _, by rw [Kernel.step, htick]; rfl, h', fun es => ?_⟩
      rw [event, if_pos hexp, if_pos ⟨rfl, hexp⟩]
      rfl
    · obtain ⟨k', htick, h'⟩ := h.tick hexp
      refine ⟨k', R, l, Q, by rw [Kernel.step, htick]; rfl, h', fun es => ?_⟩
      rw [event, if_neg hexp, if_neg fun h => hexp h.2]
      rfl
  | append t =>
    obtain ⟨k', R', happ, h'⟩ := h.append hop
    exact ⟨k', R', _, _, happ, h', fun es => by rw [if_neg (by simp)]; rfl⟩
  | push t =>
    obtain ⟨k', R', hpush, h'⟩ := h.push hop
    exact ⟨k', R', _, _, hpush, h', fun es => by rw [if_neg (by simp)]; rfl⟩
  | create => exact hop.elim
  | addThread _ _ => exact hop.elim
  | destroy _ => exact hop.elim
  | remove _ => exact hop.elim
  | suspend _ => exact hop.elim
  | wakeup _ _ => exact hop.elim
  | scheduleInKernel => exact hop.elim
  | lock _ => exact hop.elim
  | trylock _ => exact hop.elim
  | unlock _ => exact hop.elim

/-! ## Runs -/

/-- The threads dispatched in any sequence of such calls are those of the queue. At the end, the
    ring implements a queue again, without repetition: the next round dispatches each of its threads
    once, and a thread appended runs after all those waiting. -/
theorem dispatched_eq {ops : List Op} (h : RoundRobin k R q l Q)
    (hops : Admissible step (Fresh q) k ops) :
    ∃ es k' R' l' Q', k.events ops = some es ∧
      k.dispatched ops = some ((Q.dispatches es).map .thread) ∧
      ops.foldlM step k = some k' ∧ RoundRobin k' R' q l' Q' ∧ Q'.elems.Nodup ∧
      Q'.dispatches (List.replicate Q'.elems.length .expire) = Q'.others ++ [Q'.running] ∧
      ∀ t, Q'.dispatches (.append t :: List.replicate (Q'.others.length + 1) .expire) =
        Q'.others ++ [t] := by
  induction ops generalizing k R l Q with
  | nil =>
    exact ⟨[], k, R, l, Q, rfl, rfl, rfl, h, h.nodup, Q.dispatches_round, Q.dispatches_append⟩
  | cons op ops ih =>
    obtain ⟨k₁, R₁, l₁, Q₁, hk₁, h₁, hes⟩ := h.step hops.1
    obtain ⟨es, k', R', l', Q', hes', hdisp, hrun, hrest⟩ := ih h₁ (hops.2 k₁ hk₁)
    refine ⟨k.event op ++ es, k', R', l', Q', ?_, ?_, ?_, hrest⟩
    · rw [events, hk₁]
      simp only [Option.bind_eq_bind, Option.bind_some, hes']
    · rw [dispatched, hk₁, hes]
      simp only [Option.bind_eq_bind, Option.bind_some, hdisp, h₁.curThread]
      split_ifs <;> rfl
    · rw [List.foldlM_cons, hk₁]
      exact hrun

/-- The ready ring of the current thread implements a queue, if the others in it are ready, and none
    is of higher priority. -/
theorem Shape.roundRobin (hs : Shape k R) (hmax : k.maxPrio = (q : ℕ))
    (hcur : k.curThread = .thread c)
    (hcursor : k.curNodeInGroup q = some (.thread c)) (hlinked : .thread c ∈ R (.ready q))
    (hready : ∀ t, .thread t ∈ R (.ready q) → t ≠ c → (k.thr (.thread t)).state = .ready) :
    ∃ l Q, RoundRobin k R q l Q := by
  obtain ⟨l, hl⟩ := Links.exists_coe_cons_of_mem hlinked
  have hmem : ∀ x ∈ l, x ∈ R (.ready q) := fun x hx => by
    rw [hl]
    simp [hx]
  have hthread : ∀ x ∈ l.filter (· ≠ .hdr (.ready q)), ∃ t, Node.thread t = x := fun x hx => by
    obtain ⟨hx, hne⟩ := List.mem_filter.1 hx
    obtain ⟨t, ht⟩ := hs.eq_thread (hmem x hx) (by simpa using hne)
    exact ⟨t, ht.symm⟩
  obtain ⟨ts, hts⟩ : l.filter (· ≠ .hdr (.ready q)) ∈ Set.range (List.map Node.thread) := by
    rw [Set.range_list_map]
    exact hthread
  refine ⟨l, ⟨c, ts⟩, hs, hmax, hcur, hcursor, hl, hts.symm, fun t ht => ?_⟩
  have htl : .thread t ∈ l := by
    have := hts ▸ List.mem_map_of_mem ht
    exact List.mem_of_mem_filter this
  refine hready t (hmem _ htl) ?_
  rintro rfl
  exact (List.nodup_cons.1 (Cycle.nodup_coe_iff.1 (hl ▸ (hs.rings.ring _).nodup))).1 htl

/-- After start-up without a pending thread, the ready ring of the current thread implements a
    queue. -/
theorem Booted.roundRobin (h : Booted k R c)
    (hmax : k.maxPrio = (k.thr (.thread c)).priority) :
    ∃ l Q, RoundRobin k R (k.thr (.thread c)).priority l Q :=
  h.shape.roundRobin hmax h.curThread h.cursor h.linked fun _ ht hne => h.ready ht hne

/-- A thread that is created then is in no list, and the ready ring implements a queue still. -/
theorem Booted.roundRobin_createThread (h : Booted k R c)
    (hmax : k.maxPrio = (k.thr (.thread c)).priority) (hfree : .thread t ∈ R .free) :
    ∃ k' u R' l Q, k.createThread = some (k', .thread u) ∧
      RoundRobin k' R' (k.thr (.thread c)).priority l Q ∧ k'.Unlinked u ∧
      (k'.thr (.thread u)).state = .ready ∧
      (k'.thr (.thread u)).priority = (k.thr (.thread u)).priority := by
  obtain ⟨u, L', R', hu, hcreate, hs', hmem⟩ := h.shape.createThread hfree
  have hne : ∀ ⦃t p⦄, .thread t ∈ R (.ready p) → t ≠ u := by
    rintro t p ht rfl
    exact absurd (h.shape.rings.disjoint ht hu) (by simp)
  obtain ⟨l, Q, hrr⟩ := hs'.roundRobin hmax h.curThread h.cursor
    ((hmem _ _).2 ⟨h.linked, by simpa using hne h.linked⟩) fun t ht hc => by
      have ht := ((hmem _ _).1 ht).1
      rw [used_state, if_neg (by simpa using hne ht)]
      exact h.ready ht hc
  exact ⟨_, u, R', l, Q, hcreate, hrr, hs'.unlinked_iff.2 fun j hj =>
    ((hmem _ _).1 hj).2 rfl, by simp, by simp⟩

/-- The idle threads and a thread that has been created are dispatched in turn. -/
theorem idle_threads_dispatched :
    ∃ k₀ k R l Q es, boot (fun _ => 0) noThread (fun _ => 0) = some k₀ ∧
      k₀.createThread = some (k, .thread 2) ∧ RoundRobin k R 0 l Q ∧
      k.events (.append 2 :: List.replicate 50 .tick) = some es ∧
        Q.dispatches es = [0, 2, 1, 0, 2] := by
  -- The kernel is run for 50 ticks; the lemma is applied to the state before them.
  have hrun : ((boot (fun _ => 0) noThread fun _ => 0).bind fun k₀ =>
      k₀.createThread.bind fun r =>
        (r.1.dispatched (.append 2 :: List.replicate 50 .tick)).map fun xs =>
        ((xs, r.2), decide (k₀.links.next (.hdr .free) = some (.thread 2) ∧
          k₀.maxPrio = (k₀.thr k₀.curThread).priority ∧ (k₀.thr k₀.curThread).priority = 0 ∧
          (k₀.thr (.thread 2)).priority = 0))) =
      some (([.thread 0, .thread 2, .thread 1, .thread 0, .thread 2], .thread 2), true) := by
    decide +kernel
  obtain ⟨k₀, hboot, hrun⟩ := Option.bind_eq_some_iff.1 hrun
  obtain ⟨⟨k, x⟩, hcreate, hrun⟩ := Option.bind_eq_some_iff.1 hrun
  obtain ⟨xs, hdisp, hfields⟩ := Option.map_eq_some_iff.1 hrun
  simp only [Prod.mk.injEq, decide_eq_true_eq] at hfields
  obtain ⟨⟨rfl, rfl⟩, hnext, hmax, hprio, hprio₂⟩ := hfields
  obtain ⟨R, c, hb⟩ := booted_of_boot hboot
  rw [hb.curThread] at hmax hprio
  have hfree : .thread 2 ∈ R .free := hb.shape.onList_iff.1 (.single hnext)
  obtain ⟨k', u, R', l, Q, hcreate', h, hunlinked, hstate, hsame⟩ :=
    hb.roundRobin_createThread hmax hfree
  obtain ⟨rfl, hnode⟩ := Prod.mk.inj (Option.some.inj (hcreate'.symm.trans hcreate))
  obtain rfl := Node.thread.inj hnode
  rw [hprio] at h
  have hadm : Admissible step (Fresh 0) k' (.append 2 :: List.replicate 50 .tick) :=
    ⟨⟨hunlinked, hstate, hsame.trans hprio₂⟩,
      fun _ _ => by simp [Admissible, Fresh, List.replicate]⟩
  obtain ⟨es, -, -, -, -, hes, hdisp', -⟩ := dispatched_eq h hadm
  refine ⟨k₀, k', R', l, Q, es, hboot, hcreate, h, hes, ?_⟩
  have hmap : (Q.dispatches es).map Node.thread = [0, 2, 1, 0, 2].map Node.thread :=
    Option.some.inj (hdisp'.symm.trans hdisp)
  exact List.map_injective_iff.2 (fun _ _ => Node.thread.inj) hmap

end Kernel

end DemoOs
