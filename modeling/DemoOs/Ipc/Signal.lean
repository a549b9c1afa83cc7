import DemoOs.Types
import DemoOs.Arch.FindBit
import DemoOs.Lib.Ring

/-!
# Pending signals

`getOnePendedSignalForRun` (`signalsystem.cpp`) takes a signal out of a context: the lowest of those
pending that are asked for, as a kill if there is one, and otherwise from the head of the queue of
the signal. The heads of the queues, that of the free list, and the entries on them are nodes of one
link memory.

Dequeueing is right (`Dequeues`) but for two cases (`Safe`, `dequeues_iff`). There are 63 queues,
and `sigmask` admits 64 signals: the last one has no queue. And an entry sent several times that is
for `SIGEV_SIGNAL` goes to the free list with the first delivery, while it stays on its queue.
-/

namespace DemoOs

/-- `_NSIGS`. -/
def NSIGS : ℕ := 63

def SI_KILL : ℤ := 1
def SIGEV_SIGNAL : ℤ := 1

/-- The fields of `siginfo` that are written. -/
structure SigInfo where
  signo : ℤ
  errno : ErrNo
  code : ℤ
  /-- `_value.sival_ptr`. -/
  value : ℕ
  deriving DecidableEq

/-- A node of a list: the header of the free list, that of a queue of a context, or an entry. -/
inductive SigNode (C P : Type)
  | free
  | queue (c : C) (i : Fin NSIGS)
  | pend (p : P)
  deriving DecidableEq

/-- The contexts `C` and the entries `P`. -/
structure Signals (C P : Type) where
  links : Links (SigNode C P)
  /-- `_sigsetPending`. -/
  pending : C → BitVec 64
  /-- `_sigsetKill`. -/
  kill : C → BitVec 64
  /-- `_siginfo`. -/
  info : P → SigInfo
  /-- `_times`. -/
  times : P → ℕ
  /-- `_notify`. -/
  notify : P → ℤ

namespace Signals

variable {C P : Type} [DecidableEq C] [DecidableEq P] (s : Signals C P)

def signalIndex (sigNo : ℕ) : ℕ := sigNo - 1

def deallocateSigPend (p : P) : Option (Signals C P) :=
  (s.links.insertBefore .free (.pend p)).map fun links => { s with links }

/-- The branch for a kill. -/
def takeKill (c : C) (sigNum : ℕ) (bit : BitVec 64) : SigInfo × Signals C P :=
  (⟨sigNum, .ENONE, SI_KILL, 0⟩, { s with kill := Function.update s.kill c (s.kill c &&& ~~~bit) })

/-- The branch for the entry at the head of a queue. There is none if the queue is empty. -/
def takeHead (c : C) (i : Fin NSIGS) : Option (SigInfo × Signals C P) :=
  match s.links.next (.queue c i) with
  | some (.pend p) =>
    let taken :=
      if s.times p = 0 then (s.links.erase (.pend p)).map fun links => { s with links }
      else some { s with times := Function.update s.times p (s.times p - 1) }
    taken.bind fun s =>
      if (s.info p).code ≠ SI_KILL ∧ s.notify p = SIGEV_SIGNAL then
        (s.deallocateSigPend p).map fun s' => (s.info p, s')
      else some (s.info p, s)
  | _ => none

/-- A signal whose queue is empty is no longer pending. -/
def clearPending (c : C) (i : Fin NSIGS) (bit : BitVec 64) : Signals C P :=
  if s.links.next (.queue c i) = some (.queue c i) then
    { s with pending := Function.update s.pending c (s.pending c &&& ~~~bit) }
  else s

/-- The number of the signal, what is stored of it, and the contexts. There is none if a queue is
    accessed that does not exist. -/
def getOnePendedSignalForRun (c : C) (sigset : BitVec 64) :
    Option (ℕ × Option SigInfo × Signals C P) :=
  let needed := sigset &&& s.pending c
  if needed = 0 then some (0, none, s)
  else
    let bit := needed &&& -needed
    let sigNum := findMostSignificantBit64 bit
    if h : signalIndex sigNum < NSIGS then
      let taken :=
        if bit &&& s.kill c ≠ 0 then some (s.takeKill c sigNum bit)
        else s.takeHead c ⟨signalIndex sigNum, h⟩
      taken.map fun (info, s) => (sigNum, some info, s.clearPending c ⟨signalIndex sigNum, h⟩ bit)
    else none

/-! ## Consistency -/

/-- The lists: the queues of the contexts, and the free list. -/
structure Lists (C P : Type) where
  queue : C → Fin NSIGS → List P
  free : List P

namespace Lists

variable (l : Lists C P)

/-- The lists as cycles of nodes, by the header. -/
def cycles : Option (C × Fin NSIGS) → Cycle (SigNode C P)
  | none => ((SigNode.free :: l.free.map SigNode.pend : List (SigNode C P)) : Cycle _)
  | some (c, i) =>
    ((SigNode.queue c i :: (l.queue c i).map SigNode.pend : List (SigNode C P)) : Cycle _)

/-- The lists with another queue. -/
def setQueue (c : C) (i : Fin NSIGS) (ps : List P) : Lists C P :=
  { l with queue := Function.update l.queue c (Function.update (l.queue c) i ps) }

end Lists

/-- The lists are linked as they should be, and no entry is on two of them. -/
def Linked (l : Lists C P) : Prop := s.links.RingFamily l.cycles

/-- The signals pending are those killed with, and those with entries on their queues. -/
def Marked (l : Lists C P) (c : C) : Prop :=
  ∀ i < 64, (s.pending c).getLsbD i = true ↔
    (s.kill c).getLsbD i = true ∨ ∃ h : i < NSIGS, l.queue c ⟨i, h⟩ ≠ []

/-- What is consumed of the signal with the index `i`, and stored of it: the kill, or one of the
    deliveries of the entry at the head of the queue. -/
inductive Consumes (s : Signals C P) (l : Lists C P) (c : C) :
    ℕ → SigInfo → Signals C P → Lists C P → Prop
  | kill {i s'} : (s.kill c).getLsbD i = true →
      s'.kill = Function.update s.kill c (s.kill c &&& ~~~BitVec.twoPow 64 i) → s'.times = s.times →
      Consumes s l c i ⟨i + 1, .ENONE, SI_KILL, 0⟩ s' l
  | last {i : Fin NSIGS} {p ps free s'} : (s.kill c).getLsbD i = false → l.queue c i = p :: ps →
      s.times p = 0 → s'.kill = s.kill → s'.times = s.times →
      (free = l.free ∨ free = l.free ++ [p]) →
      Consumes s l c i (s.info p) s' { l.setQueue c i ps with free }
  | again {i : Fin NSIGS} {p ps s'} : (s.kill c).getLsbD i = false → l.queue c i = p :: ps →
      s.times p ≠ 0 → s'.kill = s.kill →
      s'.times = Function.update s.times p (s.times p - 1) →
      Consumes s l c i (s.info p) s' l

/-- One instance of the signal with the index `i` is consumed, after which the context is consistent
    again. -/
def Yields (l : Lists C P) (c : C) (sigset : BitVec 64) (i : ℕ) : Prop :=
  ∃ info s' l', s.getOnePendedSignalForRun c sigset = some (i + 1, some info, s') ∧
    Consumes s l c i info s' l' ∧ (∀ d ≠ c, s'.pending d = s.pending d) ∧ s'.info = s.info ∧
    s'.Linked l' ∧ s'.Marked l' c

/-- With no signal asked for pending, nothing changes, and otherwise the lowest one is consumed, in
    the bounds of the queues. -/
def Dequeues (l : Lists C P) (c : C) (sigset : BitVec 64) : Prop :=
  (sigset &&& s.pending c = 0 → s.getOnePendedSignalForRun c sigset = some (0, none, s)) ∧
  ∀ i, IsLowest (sigset &&& s.pending c) i → i < NSIGS ∧ s.Yields l c sigset i

/-- The lowest signal is not the one without a queue, and if it is taken from its queue, the entry
    there is not one for `SIGEV_SIGNAL` that is to be delivered again. -/
def Safe (c : C) (sigset : BitVec 64) : Prop :=
  ∀ i, IsLowest (sigset &&& s.pending c) i → ∃ h : i < NSIGS,
    (s.kill c).getLsbD i = false → ∀ p, s.links.next (.queue c ⟨i, h⟩) = some (.pend p) →
      s.times p = 0 ∨ (s.info p).code = SI_KILL ∨ s.notify p ≠ SIGEV_SIGNAL

/-! ## The lists -/

variable {s} {l : Lists C P} {c : C} {i : Fin NSIGS} {p : P} {ps : List P}

omit [DecidableEq C] [DecidableEq P] in
theorem Linked.next_queue (h : s.Linked l) : s.links.next (.queue c i) =
    ((l.queue c i).map SigNode.pend ++ [SigNode.queue c i]).head? :=
  (h.ring (some (c, i))).next_eq_head?

omit [DecidableEq C] [DecidableEq P] in
theorem Linked.next_queue_cons (h : s.Linked l) (hq : l.queue c i = p :: ps) :
    s.links.next (.queue c i) = some (.pend p) := by
  rw [h.next_queue, hq]
  rfl

omit [DecidableEq C] [DecidableEq P] in
/-- The test for an empty queue. -/
theorem Linked.next_queue_iff (h : s.Linked l) :
    s.links.next (.queue c i) = some (.queue c i) ↔ l.queue c i = [] := by
  rw [h.next_queue]
  cases l.queue c i <;> simp

omit [DecidableEq P] in
theorem cycles_setQueue : (l.setQueue c i ps).cycles =
    Function.update l.cycles (some (c, i))
      ((SigNode.queue c i :: ps.map SigNode.pend : List (SigNode C P)) : Cycle _) := by
  funext j
  rcases j with _ | ⟨d, k⟩
  · rw [Function.update_of_ne (by simp)]
    rfl
  · by_cases hj : (d, k) = (c, i)
    · obtain ⟨rfl, rfl⟩ := Prod.ext_iff.1 hj
      simp [Lists.cycles, Lists.setQueue]
    · rw [Function.update_of_ne (by simpa using hj)]
      by_cases hd : d = c
      · subst hd
        have hk : k ≠ i := fun hk => hj (by rw [hk])
        simp [Lists.cycles, Lists.setQueue, hk]
      · simp [Lists.cycles, Lists.setQueue, hd]

/-- The entry at the head is taken off its queue. -/
theorem Linked.erase_head (h : s.Linked l) (hq : l.queue c i = p :: ps) :
    ∃ links, s.links.erase (.pend p) = some links ∧
      Linked { s with links } (l.setQueue c i ps) ∧
      ∀ j, SigNode.pend p ∉ (l.setQueue c i ps).cycles j := by
  have hcycle : l.cycles (some (c, i)) =
      ((SigNode.queue c i :: SigNode.pend p ::
        ps.map SigNode.pend : List (SigNode C P)) : Cycle _) := by
    simp [Lists.cycles, hq]
  obtain ⟨links, herase, hfamily⟩ := h.erase_second hcycle
  refine ⟨links, herase, ?_, fun j hj => ?_⟩
  · rw [Linked, cycles_setQueue]
    exact hfamily
  · have hmem : SigNode.pend p ∈ l.cycles (some (c, i)) := by simp [hcycle]
    rw [cycles_setQueue] at hj
    by_cases hji : j = some (c, i)
    · subst hji
      rw [Function.update_self] at hj
      have hnodup := (h.ring (some (c, i))).nodup
      rw [hcycle, Cycle.nodup_coe_iff] at hnodup
      simp only [Cycle.mem_coe_iff, List.mem_cons, reduceCtorEq, false_or] at hj
      exact (List.nodup_cons.1 (List.nodup_cons.1 hnodup).2).1 hj
    · rw [Function.update_of_ne hji] at hj
      exact hji (h.disjoint hj hmem)

/-- An entry on no list goes to the end of the free list. -/
theorem Linked.insert_free (h : s.Linked l) (hp : ∀ j, SigNode.pend p ∉ l.cycles j) :
    ∃ links, s.links.insertBefore .free (.pend p) = some links ∧
      Linked { s with links } { l with free := l.free ++ [p] } := by
  obtain ⟨links, hinsert, hfamily⟩ :=
    h.insertBefore (i := none) (c := SigNode.free) (l := l.free.map SigNode.pend) rfl hp
  refine ⟨links, hinsert, ?_⟩
  have hcycles : Lists.cycles { l with free := l.free ++ [p] } = Function.update l.cycles none
      ((SigNode.free :: (l.free.map SigNode.pend ++ [SigNode.pend p]) : List (SigNode C P)) :
        Cycle _) := by
    funext j
    rcases j with _ | ⟨d, k⟩
    · simp [Lists.cycles]
    · rw [Function.update_of_ne (by simp)]
      rfl
  rw [Linked, hcycles]
  exact hfamily

/-! ## The bits -/

section

variable {bit : BitVec 64}

@[simp] theorem clearPending_links : (s.clearPending c i bit).links = s.links := by
  rw [clearPending]; split <;> rfl

@[simp] theorem clearPending_kill : (s.clearPending c i bit).kill = s.kill := by
  rw [clearPending]; split <;> rfl

@[simp] theorem clearPending_times : (s.clearPending c i bit).times = s.times := by
  rw [clearPending]; split <;> rfl

@[simp] theorem clearPending_info : (s.clearPending c i bit).info = s.info := by
  rw [clearPending]; split <;> rfl

theorem clearPending_pending {d : C} (hd : d ≠ c) :
    (s.clearPending c i bit).pending d = s.pending d := by
  rw [clearPending]
  split
  · exact Function.update_of_ne hd ..
  · rfl

end

omit [DecidableEq C] [DecidableEq P] in
theorem twoPow_and_ne_zero {x : BitVec 64} {i : ℕ} (hi : i < 64) :
    BitVec.twoPow 64 i &&& x ≠ 0 ↔ x.getLsbD i = true := by
  rw [BitVec.and_comm, BitVec.and_twoPow]
  by_cases hx : x.getLsbD i = true
  · rw [if_pos hx]
    refine iff_of_true (fun h0 => ?_) hx
    have hbit := congrArg (fun y : BitVec 64 => y.getLsbD i) h0
    simp [hi] at hbit
  · simp [hx]

/-- The marks after one instance of the signal `i` has been consumed. -/
theorem Marked.clearPending {u : Signals C P} {l₁ : Lists C P} {i : Fin NSIGS}
    (h : s.Marked l c) (hl : u.Linked l₁) (hi : (s.pending c).getLsbD i = true)
    (hpending : u.pending = s.pending) (hkill : (u.kill c).getLsbD i = false)
    (hkills : ∀ j : ℕ, j ≠ i → (u.kill c).getLsbD j = (s.kill c).getLsbD j)
    (hqueues : ∀ j ≠ i, l₁.queue c j = l.queue c j) :
    (u.clearPending c i (BitVec.twoPow 64 i)).Marked l₁ c := by
  intro j hj
  -- The bits of other signals are as they were.
  have hother : j ≠ i → ((s.pending c).getLsbD j = true ↔
      (u.kill c).getLsbD j = true ∨ ∃ h : j < NSIGS, l₁.queue c ⟨j, h⟩ ≠ []) := by
    intro hji
    rw [h j hj, hkills j hji]
    refine or_congr_right (exists_congr fun hlt => ?_)
    rw [hqueues ⟨j, hlt⟩ fun heq => hji (Fin.ext_iff.1 heq)]
  rw [Signals.clearPending]
  split
  · next hnext =>
    have hempty := hl.next_queue_iff.1 hnext
    simp only [Function.update_self, hpending, getLsbD_and_not_twoPow]
    by_cases hji : j = i
    · subst hji
      refine iff_of_false (by simp) ?_
      rintro (hbit | ⟨_, hne⟩)
      · rw [hkill] at hbit
        cases hbit
      · exact hne hempty
    · rw [← hother hji]
      simp [hji]
  · next hnext =>
    by_cases hji : j = i
    · subst hji
      rw [hpending]
      exact iff_of_true hi (.inr ⟨i.isLt, mt hl.next_queue_iff.2 hnext⟩)
    · rw [hpending]
      exact hother hji

/-! ## Taking a signal -/

/-- For the lowest signal asked for. -/
theorem getOnePendedSignalForRun_eq {sigset : BitVec 64}
    (h : IsLowest (sigset &&& s.pending c) i) :
    s.getOnePendedSignalForRun c sigset =
      (if (s.kill c).getLsbD i then some (s.takeKill c (i + 1) (BitVec.twoPow 64 i))
        else s.takeHead c i).map fun (info, s) =>
          ((i : ℕ) + 1, some info, s.clearPending c i (BitVec.twoPow 64 i)) := by
  have hlt : signalIndex ((i : ℕ) + 1) < NSIGS := i.isLt
  rw [getOnePendedSignalForRun]
  simp only [if_neg h.ne_zero, findMostSignificantBit64_lowest h, dif_pos hlt]
  simp only [h.and_neg, twoPow_and_ne_zero h.lt]
  rfl

/-- The last signal has no queue. -/
theorem getOnePendedSignalForRun_eq_none {sigset : BitVec 64} {i : ℕ}
    (h : IsLowest (sigset &&& s.pending c) i) (hi : ¬ i < NSIGS) :
    s.getOnePendedSignalForRun c sigset = none := by
  have hlt : ¬ signalIndex (i + 1) < NSIGS := hi
  rw [getOnePendedSignalForRun]
  simp only [if_neg h.ne_zero, findMostSignificantBit64_lowest h, dif_neg hlt]

/-- The last delivery of the entry at the head: it leaves its queue, perhaps for the free list. -/
theorem takeHead_last (h : s.Linked l) (hq : l.queue c i = p :: ps) (htimes : s.times p = 0) :
    ∃ s' free, s.takeHead c i = some (s.info p, s') ∧ (free = l.free ∨ free = l.free ++ [p]) ∧
      s'.Linked { l.setQueue c i ps with free } ∧ s'.pending = s.pending ∧ s'.kill = s.kill ∧
      s'.times = s.times ∧ s'.info = s.info := by
  obtain ⟨links, herase, hlinked, hout⟩ := h.erase_head hq
  rw [takeHead, h.next_queue_cons hq]
  simp only [if_pos htimes, herase, Option.map_some, Option.bind_some]
  split
  · obtain ⟨links', hinsert, hlinked'⟩ := hlinked.insert_free hout
    refine ⟨{ s with links := links' }, l.free ++ [p], ?_, .inr rfl, hlinked', rfl, rfl, rfl, rfl⟩
    rw [deallocateSigPend, hinsert]
    rfl
  · exact ⟨{ s with links }, l.free, rfl, .inl rfl, hlinked, rfl, rfl, rfl, rfl⟩

/-- Another delivery of the entry at the head. -/
theorem takeHead_again (h : s.Linked l) (hq : l.queue c i = p :: ps) (htimes : s.times p ≠ 0)
    (hstay : (s.info p).code = SI_KILL ∨ s.notify p ≠ SIGEV_SIGNAL) :
    s.takeHead c i =
      some (s.info p, { s with times := Function.update s.times p (s.times p - 1) }) := by
  rw [takeHead, h.next_queue_cons hq]
  simp only [if_neg htimes, Option.bind_some]
  rw [if_neg]
  rintro ⟨hcode, hnotify⟩
  exact hstay.elim hcode fun hne => hne hnotify

/-- An entry that is to be delivered again, and goes to the free list, is on two lists. -/
theorem takeHead_twice (h : s.Linked l) (hq : l.queue c i = p :: ps) (htimes : s.times p ≠ 0)
    (hcode : (s.info p).code ≠ SI_KILL) (hnotify : s.notify p = SIGEV_SIGNAL) :
    ∃ s', s.takeHead c i = some (s.info p, s') ∧ s'.links.next (.queue c i) = some (.pend p) ∧
      s'.links.prev .free = some (.pend p) := by
  obtain ⟨y, -, hlink⟩ := (h.ring none).exists_prev (x := SigNode.free) (by simp [Lists.cycles])
  obtain ⟨links, hinsert, hnext, hprev⟩ :=
    Links.insertBefore_eq (x := SigNode.pend p) hlink.2 (by simp)
  rw [takeHead, h.next_queue_cons hq]
  simp only [if_neg htimes, Option.bind_some, if_pos (And.intro hcode hnotify)]
  refine ⟨{ s with links, times := Function.update s.times p (s.times p - 1) }, ?_, ?_, ?_⟩
  · rw [deallocateSigPend]
    simp only [hinsert]
    rfl
  · simp only [hnext, h.next_queue_cons hq, reduceCtorEq, if_false, ite_self]
  · simp only [hprev, if_true]

/-! ## Dequeueing -/

omit [DecidableEq C] [DecidableEq P] in
/-- An entry is not on two lists. -/
theorem Linked.not_twice (h : s.Linked l) (hnext : s.links.next (.queue c i) = some (.pend p)) :
    s.links.prev .free ≠ some (.pend p) := by
  intro hprev
  obtain ⟨x, hx, hqueue⟩ :=
    (h.ring (some (c, i))).exists_next (x := SigNode.queue c i) (by simp [Lists.cycles])
  obtain ⟨y, hy, hfree⟩ := (h.ring none).exists_prev (x := SigNode.free) (by simp [Lists.cycles])
  obtain rfl : x = SigNode.pend p := Option.some.inj (hqueue.1.symm.trans hnext)
  obtain rfl : y = SigNode.pend p := Option.some.inj (hfree.2.symm.trans hprev)
  exact Option.some_ne_none _ (h.disjoint hx hy)

variable {sigset : BitVec 64}

/-- A signal to be consumed as a kill. -/
theorem consumes_kill (h : s.Linked l) (hm : s.Marked l c)
    (hi : IsLowest (sigset &&& s.pending c) i) (hkill : (s.kill c).getLsbD i = true) :
    s.Yields l c sigset i := by
  rw [Yields, getOnePendedSignalForRun_eq hi, if_pos hkill]
  refine ⟨_, _, l, rfl, ?_, ?_, ?_, ?_, ?_⟩
  · exact .kill hkill clearPending_kill clearPending_times
  · exact fun d hd => clearPending_pending hd
  · exact clearPending_info
  · rw [Linked, clearPending_links]
    exact h
  · refine hm.clearPending (u := (s.takeKill c (i + 1) (BitVec.twoPow 64 i)).2) h
      hi.mem_right rfl ?_ ?_
      fun j _ => rfl
    · simp only [takeKill, Function.update_self, getLsbD_and_not_twoPow]
      simp
    · intro j hj
      simp only [takeKill, Function.update_self, getLsbD_and_not_twoPow]
      simp [hj]

/-- A signal to be consumed from the head of its queue. -/
theorem consumes_head (h : s.Linked l) (hm : s.Marked l c)
    (hi : IsLowest (sigset &&& s.pending c) i) (hkill : (s.kill c).getLsbD i = false)
    (hq : l.queue c i = p :: ps)
    (hstay : s.times p = 0 ∨ (s.info p).code = SI_KILL ∨ s.notify p ≠ SIGEV_SIGNAL) :
    s.Yields l c sigset i := by
  rw [Yields, getOnePendedSignalForRun_eq hi, if_neg (by simp [hkill])]
  -- The last time the entry is given back, before that its count is taken down.
  by_cases htimes : s.times p = 0
  · obtain ⟨s₁, free, htake, hfree, hlinked, hpending, hkills, hts, hinfo⟩ :=
      takeHead_last h hq htimes
    rw [htake]
    refine ⟨_, _, { l.setQueue c i ps with free }, rfl, ?_, ?_, ?_, ?_, ?_⟩
    · exact .last hkill hq htimes (clearPending_kill.trans hkills)
        (clearPending_times.trans hts) hfree
    · exact fun d hd => (clearPending_pending hd).trans (congrFun hpending d)
    · exact clearPending_info.trans hinfo
    · rw [Linked, clearPending_links]
      exact hlinked
    · refine hm.clearPending hlinked hi.mem_right hpending (by rw [hkills, hkill])
        (fun j _ => by rw [hkills])
        fun j hj => ?_
      simp [Lists.setQueue, hj]
  · rw [takeHead_again h hq htimes (hstay.resolve_left htimes)]
    refine ⟨_, _, l, rfl, ?_, ?_, ?_, ?_, ?_⟩
    · exact .again hkill hq htimes clearPending_kill clearPending_times
    · exact fun d hd => clearPending_pending hd
    · exact clearPending_info
    · rw [Linked, clearPending_links]
      exact h
    · exact Marked.clearPending (u := { s with times := _ }) hm h hi.mem_right rfl hkill
        (fun j _ => rfl)
        fun j _ => rfl

/-- Dequeueing that is right returns zero only if no signal asked for is pending. -/
theorem Dequeues.eq_zero_iff (hdequeues : s.Dequeues l c sigset) :
    s.getOnePendedSignalForRun c sigset = some (0, none, s) ↔ sigset &&& s.pending c = 0 := by
  refine ⟨fun hzero => ?_, hdequeues.1⟩
  by_contra hne
  obtain ⟨i, hi⟩ := exists_isLowest hne
  obtain ⟨-, info, s', -, hget, -⟩ := hdequeues.2 i hi
  cases hzero.symm.trans hget

/-- Dequeueing that is right is safe: of an entry on two lists, the links cannot be right. -/
theorem Dequeues.safe (h : s.Linked l) (hdequeues : s.Dequeues l c sigset) : s.Safe c sigset := by
  intro i hi
  obtain ⟨hlt, info, s', l', hget, -, -, -, hlinked, -⟩ := hdequeues.2 i hi
  refine ⟨hlt, fun hkill p hnext => ?_⟩
  by_contra hunsafe
  push Not at hunsafe
  obtain ⟨htimes, hcode, hnotify⟩ := hunsafe
  obtain ⟨ps, hq⟩ : ∃ ps, l.queue c ⟨i, hlt⟩ = p :: ps := by
    rw [h.next_queue] at hnext
    cases hq : l.queue c ⟨i, hlt⟩ with
    | nil => simp [hq] at hnext
    | cons q ps =>
      obtain rfl : q = p := by simpa [hq] using hnext
      exact ⟨ps, rfl⟩
  obtain ⟨s₁, htake, hnext₁, hprev₁⟩ := takeHead_twice h hq htimes hcode hnotify
  rw [getOnePendedSignalForRun_eq (i := ⟨i, hlt⟩) hi, if_neg (by simp [hkill]), htake] at hget
  simp only [Option.map_some, Option.some.injEq, Prod.mk.injEq] at hget
  obtain ⟨-, -, rfl⟩ := hget
  exact hlinked.not_twice (by rwa [clearPending_links]) (by rwa [clearPending_links])

/-- Dequeueing is right exactly in the cases which are safe. -/
theorem dequeues_iff (h : s.Linked l) (hm : s.Marked l c) :
    s.Dequeues l c sigset ↔ s.Safe c sigset := by
  refine ⟨fun hdequeues => hdequeues.safe h, fun hsafe => ⟨fun hnone => ?_, fun i hi => ?_⟩⟩
  · rw [getOnePendedSignalForRun, if_pos hnone]
  · obtain ⟨hlt, hstay⟩ := hsafe i hi
    refine ⟨hlt, ?_⟩
    by_cases hkill : (s.kill c).getLsbD i = true
    · exact consumes_kill (i := ⟨i, hlt⟩) h hm hi hkill
    · have hkill' : (s.kill c).getLsbD i = false := by simpa using hkill
      obtain ⟨hlt', hne⟩ := ((hm i hi.lt).1 hi.mem_right).resolve_left hkill
      obtain ⟨p, ps, hq⟩ := List.exists_cons_of_ne_nil hne
      exact consumes_head (i := ⟨i, hlt⟩) h hm hi hkill' hq (hstay hkill' p (h.next_queue_cons hq))

/-! An entry on the queue of the first signal, of a context with no other signals. -/

theorem zero_lt_nsigs : 0 < NSIGS := by decide

def firstQueue : Fin NSIGS := ⟨0, zero_lt_nsigs⟩

/-- The entry is to be delivered `n` times after the first one. -/
def queued (n : ℕ) : Signals Unit Unit where
  links :=
    let link : SigNode Unit Unit → Option (SigNode Unit Unit)
      | .free => some .free
      | .queue _ i => some (if i = firstQueue then .pend () else .queue () i)
      | .pend _ => some (.queue () firstQueue)
    ⟨link, link⟩
  pending _ := BitVec.twoPow 64 0
  kill _ := 0#64
  info _ := ⟨1, .ENONE, 0, 0⟩
  times _ := n
  notify _ := SIGEV_SIGNAL

def firstQueued : Lists Unit Unit where
  queue _ i := if i = firstQueue then [()] else []
  free := []

theorem mem_firstQueued {i : Fin NSIGS} {x : SigNode Unit Unit} :
    x ∈ firstQueued.cycles (some ((), i)) ↔ x = .queue () i ∨ i = firstQueue ∧ x = .pend () := by
  by_cases hi : i = firstQueue <;> simp [Lists.cycles, firstQueued, hi]

theorem queued_linked (n : ℕ) : (queued n).Linked firstQueued where
  ring j := by
    rcases j with _ | ⟨c, i⟩
    · exact ⟨Cycle.nodup_coe_iff.2 (List.nodup_singleton _),
        (Cycle.chain_singleton _ _).2 ⟨rfl, rfl⟩⟩
    · by_cases hi : i = firstQueue
      · subst hi
        refine ⟨Cycle.nodup_coe_iff.2 (by simp [firstQueued]), ?_⟩
        simp [Lists.cycles, firstQueued, Cycle.chain_coe_cons, Links.Linked, queued]
      · refine ⟨Cycle.nodup_coe_iff.2 (by simp [firstQueued, hi]), ?_⟩
        simp [Lists.cycles, firstQueued, hi, Links.Linked, queued]
  disjoint {j k x} hj hk := by
    have hfree : ∀ {y}, y ∈ firstQueued.cycles none → y = SigNode.free := by
      simp [Lists.cycles, firstQueued]
    rcases j with _ | ⟨⟨⟩, i⟩ <;> rcases k with _ | ⟨⟨⟩, m⟩
    · rfl
    · rw [hfree hj, mem_firstQueued] at hk
      simp at hk
    · rw [hfree hk, mem_firstQueued] at hj
      simp at hj
    · rcases mem_firstQueued.1 hj with rfl | ⟨rfl, rfl⟩ <;>
        rcases mem_firstQueued.1 hk with hx | ⟨rfl, hx⟩
      · cases hx
        rfl
      · cases hx
      · cases hx
      · rfl

theorem queued_marked (n : ℕ) : (queued n).Marked firstQueued () := by
  intro i hi
  rw [queued, BitVec.getLsbD_twoPow, BitVec.getLsbD_zero]
  simp only [firstQueued, firstQueue]
  constructor
  · intro h0
    obtain rfl : 0 = i := by simpa using h0
    exact .inr ⟨zero_lt_nsigs, by simp⟩
  · rintro (h | ⟨_, h⟩)
    · cases h
    · simpa [eq_comm] using h

theorem queued_lowest (n : ℕ) : IsLowest (BitVec.twoPow 64 0 &&& (queued n).pending ()) 0 :=
  ⟨by decide, by simp [queued], fun j hj => absurd hj (Nat.not_lt_zero j)⟩

/-- Delivered once, the entry leaves its queue. -/
theorem dequeues_iff_once : (queued 0).Dequeues firstQueued () (BitVec.twoPow 64 0) := by
  refine (dequeues_iff (queued_linked 0) (queued_marked 0)).2 fun i hi => ?_
  obtain rfl := (queued_lowest 0).unique hi
  exact ⟨zero_lt_nsigs, fun _ _ _ => .inl rfl⟩

/-- Delivered twice, it is on two lists after the first time. -/
theorem queued_twice : (queued 1).Linked firstQueued ∧ (queued 1).Marked firstQueued () ∧
    ¬ (queued 1).Dequeues firstQueued () (BitVec.twoPow 64 0) := by
  refine ⟨queued_linked 1, queued_marked 1, fun hdequeues => ?_⟩
  obtain ⟨h, hstay⟩ := hdequeues.safe (queued_linked 1) 0 (queued_lowest 1)
  rcases hstay rfl () rfl with htimes | hcode | hnotify
  · exact absurd htimes Nat.one_ne_zero
  · exact absurd hcode (by decide)
  · exact hnotify rfl

end Signals

end DemoOs
