import DemoOs.Lib.Run
import DemoOs.Task.Kernel
import Mathlib.Data.List.FinRange
import Mathlib.Data.Set.Card

/-!
# Threads and their processes

`ThreadManager` (`threadmanager.cpp`) with what it needs of `GeneralProc`: the pool of 200 threads,
of which those that are free are on a list, and for every process the list of its threads, their
number, and `_io`. Here a thread is an entry of the pool, with its stack and context.

`addThread` does not count the thread that it adds, which `destroyThread` counts off, and leaves
`_io` as `createThread` has made it of a null process; `createThread` does not look at whether there
has been memory for the stack; and that a thread is free is only asserted. All else is right: the
lists, and the number of threads that have been created (`represents_of_run`). So the runs that are
right are those that add no thread and destroy none, and have a free thread and memory for its stack
at every call (`threads_iff`).

`debug` says whether the assertions are compiled in; they are not in the kernel as it is configured.
A call gives none if it does not return, follows a null pointer, or writes to memory around the
header of the free list.
-/

namespace DemoOs

namespace ThreadManager

def InherentThreadNum : ℕ := 200

/-- `sizeof(Context)`. -/
def sizeofContext : ℕ := 39 * 4

def PPC_KERNEL_MSR : ℕ := 0x1030

/-- The nodes: the header of the free list, for every thread its two nodes, and for every process
    the header of the list of its threads. -/
inductive Node
  | freeInherentThreadList
  | commList (t : Fin InherentThreadNum)
  | procList (t : Fin InherentThreadNum)
  | threadHeader (p : ℕ)
  deriving DecidableEq

/-- What `_io` points to: nothing, or the `_io` of a process, which may be the null pointer
    itself. -/
inductive IoPtr
  | null
  | ofProc (p : Option ℕ)
  deriving DecidableEq

/-- The fields of a context that are not zero. -/
structure Context where
  sp : ℕ
  srr0 : ℕ
  srr1 : ℕ
  lr : ℕ

structure ThreadData where
  context : ℕ
  startAddr : ℕ
  endAddr : ℕ
  proc : Option ℕ
  entry : ℕ
  state : DemoOs.State
  id : ℕ
  io : IoPtr
  execTicks : ℕ
  totalTicks : ℕ
  slices : ℕ

/-- The manager, the processes and the contexts in memory. -/
structure Manager where
  links : Links Node
  thr : Fin InherentThreadNum → ThreadData
  curUsedThreadNum : ℕ
  maxUsedThreadNum : ℕ
  /-- Of 12 bits. -/
  threadCounter : ℕ → ℕ
  contexts : ℕ → Context
  archPpcIRet : ℕ

namespace Manager

def modThread (m : Manager) (t : Fin InherentThreadNum) (f : ThreadData → ThreadData) : Manager :=
  { m with thr := Function.update m.thr t (f (m.thr t)) }

/-- `GeneralProc::threadNum`. -/
def threadNum (m : Manager) (p : ℕ) : ℕ := m.threadCounter p

def init (m : Manager) : Option Manager := do
  let m := { m with
    curUsedThreadNum := 0, maxUsedThreadNum := 0,
      links := m.links.initRing .freeInherentThreadList }
  let links ← ((List.finRange InherentThreadNum).map Node.commList).foldlM
    (fun links x => links.insertBefore .freeInherentThreadList x) m.links
  some { m with links, thr := fun t => { m.thr t with id := t } }

/-- `ringListIsEmpty` of the free list. -/
def freeInherentThreadListIsEmpty (m : Manager) : Bool :=
  m.links.next .freeInherentThreadList == some .freeInherentThreadList

/-- `allocate`, which gives the first node of the free list. If no thread is free the assertion is a
    loop without end, and where it is not compiled in the node is the header of the list itself. -/
def allocate (debug : Bool) (m : Manager) : Option (Node × Manager) :=
  if debug && m.freeInherentThreadListIsEmpty then none
  else do
    let p ← m.links.next .freeInherentThreadList
    let links ← m.links.erase p
    let curUsedThreadNum := word (m.curUsedThreadNum + 1)
    some (p,
      { m with
        links, curUsedThreadNum
        maxUsedThreadNum :=
          if curUsedThreadNum > m.maxUsedThreadNum then curUsedThreadNum else m.maxUsedThreadNum })

/-- `deallocate`. -/
def deallocate (debug : Bool) (m : Manager) (t : Fin InherentThreadNum) : Option Manager :=
  if debug && decide (InherentThreadNum ≤ (m.thr t).id) then none
  else do
    let m := m.modThread t fun d => { d with state := .stopped }
    let links ← m.links.insertBefore .freeInherentThreadList (.commList t)
    some { m with links, curUsedThreadNum := wordSub m.curUsedThreadNum 1 }

/-- `createContext`; `ret` is what `kheap.allocate` returns. -/
def createContext (m : Manager) (entry stackSize : ℕ) (t : Fin InherentThreadNum) (ret : ℕ) :
    ℕ × Manager :=
  if ret ≠ 0 then
    let m := m.modThread t fun d =>
      { d with startAddr := ret, endAddr := wordSub (word (ret + stackSize)) 1 }
    let csp2 := wordSub (word (ret + stackSize)) sizeofContext
    let csp := wordSub csp2 sizeofContext
    let contexts := Function.update m.contexts csp2
      { lr := 0, sp := word (ret + stackSize), srr0 := entry, srr1 := PPC_KERNEL_MSR }
    let contexts :=
      Function.update contexts csp { sp := csp2, lr := m.archPpcIRet, srr0 := 0, srr1 := 0 }
    (csp, { m with contexts }.modThread t fun d => { d with context := csp })
  else (0, m)

/-- `createThread`. A thread that `allocate` returns is not null; that `createContext` returns null
    is not looked at. If it is the header of the free list that is taken for a thread, the fields
    are written around the header. -/
def createThread (debug : Bool) (m : Manager) (entry stackSize ret : ℕ) :
    Option (Option (Fin InherentThreadNum) × Manager) := do
  let (p, m) ← m.allocate debug
  match p with
  | .commList t =>
    let m := m.modThread t fun d => { d with entry }
    let (_, m) := m.createContext entry stackSize t ret
    let m := m.modThread t fun d =>
      { d with
        proc := none, state := .ready, io := .ofProc none, execTicks := 0, slices := 1
        totalTicks := 1 * 10 }
    some (some t, m)
  | _ => none

/-- `GeneralProc::addThread`. -/
def addThread (m : Manager) (p : ℕ) (t : Fin InherentThreadNum) : Option Manager := do
  let m := if (m.thr t).proc = none then m.modThread t fun d => { d with proc := some p } else m
  let links ← m.links.insertBefore (.threadHeader p) (.procList t)
  some { m with links }

/-- `destroyThread`, which follows `_proc`. -/
def destroyThread (debug : Bool) (m : Manager) (t : Fin InherentThreadNum) : Option Manager := do
  let p ← (m.thr t).proc
  let threadCounter :=
    Function.update m.threadCounter p ((m.threadCounter p + (2 ^ 12 - 1)) % 2 ^ 12)
  let links ← m.links.erase (.procList t)
  { m with threadCounter, links }.deallocate debug t

end Manager

/-! ## Runs -/

/-- The manager, the threads that have been created and not yet destroyed, and how many threads of
    each process have been destroyed. -/
structure State where
  manager : Manager
  live : List (Fin InherentThreadNum)
  destroyed : ℕ → ℕ

inductive Op
  | createThread (entry stackSize ret : ℕ)
  | addThread (p : ℕ) (t : Fin InherentThreadNum)
  | destroyThread (t : Fin InherentThreadNum)

/-- The process of a thread, for the number of those destroyed. -/
def Manager.count (m : Manager) (t : Fin InherentThreadNum) (n : ℕ → ℕ) : ℕ → ℕ := fun p =>
  if (m.thr t).proc = some p then n p + 1 else n p

def State.step (debug : Bool) (s : State) : Op → Option State
  | .createThread entry stackSize ret =>
      (s.manager.createThread debug entry stackSize ret).map fun r =>
      { s with manager := r.2, live := r.1.toList ++ s.live }
  | .addThread p t => (s.manager.addThread p t).map fun m => { s with manager := m }
  | .destroyThread t => (s.manager.destroyThread debug t).map fun m =>
      { manager := m, live := s.live.erase t, destroyed := s.manager.count t s.destroyed }

/-- Memory the heap gives is below 2 ^ 32; a thread is added once, and destroyed once. -/
def State.Admits (s : State) : Op → Prop
  | .createThread _ stackSize ret => ret + stackSize ≤ 2 ^ 32
  | .addThread _ t => t ∈ s.live ∧ (s.manager.thr t).proc = none
  | .destroyThread t => t ∈ s.live

/-- The threads that are linked on the list of a process. -/
def Manager.Linked (m : Manager) (p : ℕ) : Set (Fin InherentThreadNum) :=
  {t | m.links.Reaches (.threadHeader p) (.procList t)}

/-- The two counters are right. -/
structure State.Consistent (s : State) : Prop where
  threadNum : ∀ p, s.manager.threadNum p = (s.manager.Linked p).ncard
  curUsedThreadNum : s.manager.curUsedThreadNum = s.live.length

/-- A context is in the stack. -/
structure InStack (context stackSize ret : ℕ) : Prop where
  ne_zero : context ≠ 0
  le : ret ≤ context
  le_end : context + sizeofContext ≤ ret + stackSize

/-- The pool is the same: the free list and the number of threads that are used. -/
structure Manager.SamePool (m m' : Manager) : Prop where
  free : ∀ t, m'.links.Reaches .freeInherentThreadList (.commList t) ↔
    m.links.Reaches .freeInherentThreadList (.commList t)
  curUsedThreadNum : m'.curUsedThreadNum = m.curUsedThreadNum

/-- A call keeps the counters right. One that creates a thread gives one of the pool with its
    context in its stack, or null, with the pool as it was, if there is no memory for the stack; a
    thread that is added has the `_io` of its process. -/
def State.Correct (debug : Bool) (s : State) : Op → Prop
  | .createThread entry stackSize ret =>
    (ret ≠ 0 → ∃ t m', s.manager.createThread debug entry stackSize ret = some (some t, m') ∧
      State.Consistent { s with manager := m', live := t :: s.live } ∧
        InStack (m'.thr t).context stackSize ret) ∧
    (ret = 0 → ∃ m', s.manager.createThread debug entry stackSize ret = some (none, m') ∧
      s.manager.SamePool m' ∧
      State.Consistent { s with manager := m' })
  | .addThread p t => ∃ s', s.step debug (.addThread p t) = some s' ∧ s'.Consistent ∧
      (s'.manager.thr t).io = .ofProc (some p)
  | .destroyThread t => ∃ s', s.step debug (.destroyThread t) = some s' ∧ s'.Consistent

/-- A thread is free, and there is memory for its stack, which has room for the two contexts. -/
def State.Right (s : State) : Op → Prop
  | .createThread _ stackSize ret =>
    s.manager.freeInherentThreadListIsEmpty = false ∧ ret ≠ 0 ∧ 2 * sizeofContext ≤ stackSize
  | _ => False

/-- Zero-initialised storage, the lists of the processes having been initialised
    (`GeneralProc::init`). -/
def zero (archPpcIRet : ℕ) : Manager where
  links :=
    { next := fun x => match x with
        | .threadHeader p => some (.threadHeader p)
        | _ => none
      prev := fun x => match x with
        | .threadHeader p => some (.threadHeader p)
        | _ => none }
  thr := fun _ => ⟨0, 0, 0, none, 0, .stopped, 0, .null, 0, 0, 0⟩
  curUsedThreadNum := 0
  maxUsedThreadNum := 0
  threadCounter := fun _ => 0
  contexts := fun _ => ⟨0, 0, 0, 0⟩
  archPpcIRet := archPpcIRet

/-! ## The lists -/

variable {debug : Bool} {m m' : Manager} {s s' : State} {t u : Fin InherentThreadNum} {p : ℕ}
  {free l l' : List (Fin InherentThreadNum)} {members : ℕ → List (Fin InherentThreadNum)}
  {entry stackSize ret : ℕ} {op : Op}

/-- The lists of the free threads and of the threads of the processes. -/
def rings (free : List (Fin InherentThreadNum)) (members : ℕ → List (Fin InherentThreadNum)) :
    Option ℕ → Cycle Node
  | none => ↑(.freeInherentThreadList :: free.map .commList : List Node)
  | some p => ↑(.threadHeader p :: (members p).map .procList : List Node)

theorem update_rings_none (l : List (Fin InherentThreadNum)) :
    Function.update (rings free members) none ↑(.freeInherentThreadList ::
      l.map .commList : List Node) =
      rings l members := by
  funext i
  cases i with
  | none => exact Function.update_self ..
  | some q => exact Function.update_of_ne (Option.some_ne_none q) ..

theorem update_rings_some (l : List (Fin InherentThreadNum)) :
    Function.update (rings free members)
      (some p) ↑(.threadHeader p :: l.map .procList : List Node) =
      rings free (Function.update members p l) := by
  funext i
  cases i with
  | none => exact Function.update_of_ne (Option.some_ne_none p).symm ..
  | some q =>
    by_cases hq : q = p
    · subst hq
      rw [Function.update_self, rings, Function.update_self]
    · rw [Function.update_of_ne fun h => hq (Option.some.inj h), rings, rings,
        Function.update_of_ne hq]

theorem commList_mem_rings {i : Option ℕ} : .commList t ∈ rings free members i ↔
    i = none ∧ t ∈ free := by
  cases i <;> simp [rings]

theorem procList_mem_rings {i : Option ℕ} :
    .procList t ∈ rings free members i ↔ ∃ p, i = some p ∧ t ∈ members p := by
  cases i <;> simp [rings]

/-- The free list holds the threads that are not live, and the list of a process those that have
    been added to it. The number of threads of a process goes down from zero. -/
structure Represents (s : State) (free : List (Fin InherentThreadNum))
    (members : ℕ → List (Fin InherentThreadNum)) : Prop where
  rings : s.manager.links.Rings (rings free members)
  free : ∀ t, t ∈ free ↔ t ∉ s.live
  nodup : s.live.Nodup
  members : ∀ p t, t ∈ members p ↔ t ∈ s.live ∧ (s.manager.thr t).proc = some p
  curUsedThreadNum : s.manager.curUsedThreadNum = s.live.length
  threadNum : ∀ p, s.manager.threadNum p = (2 ^ 12 - s.destroyed p % 2 ^ 12) % 2 ^ 12
  id : ∀ t, (s.manager.thr t).id = t
  io : ∀ t ∈ s.live, (s.manager.thr t).io = .ofProc none

theorem Represents.nodup_members (h : Represents s free members) (p : ℕ) : (members p).Nodup := by
  have hring := (h.rings.ring (some p)).nodup
  exact .of_map _ (List.nodup_cons.1 (Cycle.nodup_coe_iff.1 hring)).2

theorem Represents.nodup_free (h : Represents s free members) : free.Nodup := by
  have hring := (h.rings.ring none).nodup
  exact .of_map _ (List.nodup_cons.1 (Cycle.nodup_coe_iff.1 hring)).2

theorem Represents.mem_linked (h : Represents s free members) : t ∈ s.manager.Linked p ↔
    t ∈ members p := by
  rw [Manager.Linked, Set.mem_ofPred_eq,
    (h.rings.ring (some p)).reaches_iff (by simp [ThreadManager.rings]),
    procList_mem_rings]
  exact ⟨fun ⟨q, hq, ht⟩ => Option.some.inj hq ▸ ht, fun ht => ⟨p, rfl, ht⟩⟩

/-- The number of threads linked on the list of a process. -/
theorem Represents.ncard_linked (h : Represents s free members) (p : ℕ) :
    (s.manager.Linked p).ncard = (members p).length := by
  have hset : s.manager.Linked p = ((members p).toFinset : Set (Fin InherentThreadNum)) := by
    ext t
    rw [h.mem_linked, List.coe_toFinset, Set.mem_ofPred_eq]
  rw [hset, Set.ncard_coe_finset, List.toFinset_card_of_nodup (h.nodup_members p)]

/-- The counters are right if the number of threads of every process has gone down to that of its
    list. -/
theorem Represents.consistent_iff (h : Represents s free members) :
    s.Consistent ↔ ∀ p, (members p).length = (2 ^ 12 - s.destroyed p % 2 ^ 12) % 2 ^ 12 := by
  constructor
  · exact fun hs p => by rw [← h.threadNum, hs.threadNum, h.ncard_linked]
  · exact fun hs => ⟨fun p => by rw [h.ncard_linked, h.threadNum, hs], h.curUsedThreadNum⟩

/-! ## What the calls do -/

/-- The first free thread is taken. -/
theorem Represents.allocate (h : Represents s (t :: free) members) : ∃ L maxUsedThreadNum,
    s.manager.allocate debug = some (.commList t,
      { s.manager with
        links := L, curUsedThreadNum := word (s.manager.curUsedThreadNum + 1), maxUsedThreadNum }) ∧
      L.Rings (ThreadManager.rings free members) := by
  have hring := h.rings.ring none
  have hnext : s.manager.links.next .freeInherentThreadList = some (.commList t) :=
    hring.linked_cons_cons.1
  have hfull : s.manager.freeInherentThreadListIsEmpty = false := by
    rw [Manager.freeInherentThreadListIsEmpty, hnext]
    rfl
  have hfirst : ThreadManager.rings (t :: free) members none =
      ↑(.freeInherentThreadList :: ([] ++ .commList t :: free.map .commList) : List Node) := rfl
  obtain ⟨L, hL, hr⟩ := h.rings.erase_middle hfirst
  rw [List.nil_append, update_rings_none] at hr
  let curUsedThreadNum := word (s.manager.curUsedThreadNum + 1)
  refine ⟨L, if curUsedThreadNum > s.manager.maxUsedThreadNum then curUsedThreadNum
    else s.manager.maxUsedThreadNum, ?_, hr⟩
  rw [Manager.allocate, hfull, Bool.and_false, if_neg Bool.false_ne_true, hnext]
  simp only [hL, Option.bind_eq_bind, Option.bind_some]
  rfl

/-- The free list is empty just if no thread is free. -/
theorem Represents.isEmpty_iff (h : Represents s free members) :
    s.manager.freeInherentThreadListIsEmpty = true ↔ free = [] := by
  have hring := h.rings.ring none
  rw [Manager.freeInherentThreadListIsEmpty, beq_iff_eq]
  cases free with
  | nil => exact iff_of_true hring.linked_singleton.1 rfl
  | cons t free =>
    have hnext : s.manager.links.next .freeInherentThreadList = some (.commList t) :=
      hring.linked_cons_cons.1
    simp [hnext]

/-- If none is free, no thread of the pool is given. -/
theorem Represents.createThread_nil (h : Represents s [] members) (entry stackSize ret : ℕ) :
    s.manager.createThread debug entry stackSize ret = none := by
  have hnext : s.manager.links.next .freeInherentThreadList = some .freeInherentThreadList :=
    (h.rings.ring none).linked_singleton.1
  cases debug with
  | true =>
    rw [Manager.createThread, Manager.allocate, h.isEmpty_iff.2 rfl]
    rfl
  | false =>
    -- It is the header that is taken off its own list.
    rw [Manager.createThread, Manager.allocate, Bool.false_and, if_neg Bool.false_ne_true, hnext]
    simp only [Option.bind_eq_bind, Option.bind_some]
    cases s.manager.links.erase .freeInherentThreadList <;> rfl

/-- What does not change of a thread, does not change of any. -/
theorem update_thread {β : Type*} (field : ThreadData → β)
    {thr : Fin InherentThreadNum → ThreadData} {d : ThreadData}
    (hd : field d = field (thr t)) (u : Fin InherentThreadNum) :
    field (Function.update thr t d u) = field (thr u) := by
  by_cases hut : u = t
  · subst hut
    rw [Function.update_self, hd]
  · rw [Function.update_of_ne hut]

/-- Where the context is put. -/
def contextAddr (stackSize ret : ℕ) : ℕ :=
  wordSub (wordSub (word (ret + stackSize)) sizeofContext) sizeofContext

/-- A thread that is created has no process, and has a new context if there is memory. -/
theorem createThread_eq (hm : m.allocate debug = some (.commList t, m')) (entry stackSize ret : ℕ) :
    ∃ d contexts, m.createThread debug entry stackSize ret =
        some (some t, { m' with thr := Function.update m'.thr t d, contexts }) ∧
      d.proc = none ∧ d.io = .ofProc none ∧ d.id = (m'.thr t).id ∧
      (ret ≠ 0 → d.context = contextAddr stackSize ret) := by
  rw [Manager.createThread, hm]
  simp only [Option.bind_eq_bind, Option.bind_some, Manager.createContext]
  by_cases hret : ret = 0
  · rw [if_neg (not_not_intro hret)]
    simp only [Manager.modThread, Function.update_self, Function.update_idem]
    exact ⟨_, _, rfl, rfl, rfl, rfl, fun h => absurd hret h⟩
  · rw [if_pos hret]
    simp only [Manager.modThread, Function.update_self, Function.update_idem]
    exact ⟨_, _, rfl, rfl, rfl, rfl, fun _ => rfl⟩

theorem Represents.createThread (h : Represents s (t :: free) members) (debug : Bool)
    (entry stackSize ret : ℕ) :
    ∃ m', s.manager.createThread debug entry stackSize ret = some (some t, m') ∧
      Represents { s with manager := m', live := t :: s.live } free members ∧
      (ret ≠ 0 → (m'.thr t).context = contextAddr stackSize ret) := by
  obtain ⟨L, maxUsedThreadNum, halloc, hr⟩ := h.allocate
  obtain ⟨d, contexts, hcall, hproc, hio, hid, hcontext⟩ :=
    createThread_eq halloc entry stackSize ret
  have hnot : t ∉ s.live := (h.free t).1 List.mem_cons_self
  -- `t` is the first thread of the free list, and nowhere else.
  have htf : t ∉ free := (List.nodup_cons.1 h.nodup_free).1
  have hlen := (List.nodup_cons.2 ⟨hnot, h.nodup⟩).length_le_card
  rw [Fintype.card_fin, List.length_cons] at hlen
  refine ⟨_, hcall,
    ⟨hr, fun u => ?_, List.nodup_cons.2 ⟨hnot, h.nodup⟩, fun p u => ?_, ?_, h.threadNum,
    fun u => ?_, fun u hu => ?_⟩, fun hret => ?_⟩
  · have hu := h.free u
    rw [List.mem_cons] at hu
    rw [List.mem_cons, not_or, ← hu]
    exact ⟨fun hf => ⟨fun heq => htf (heq ▸ hf), .inr hf⟩, fun hf => hf.2.resolve_left hf.1⟩
  · rw [h.members]
    dsimp only
    by_cases hu : u = t
    · subst hu
      rw [Function.update_self, hproc]
      simp [hnot]
    · rw [Function.update_of_ne hu, List.mem_cons, or_iff_right hu]
  · dsimp only
    rw [h.curUsedThreadNum, List.length_cons, word_eq (hlen.trans_lt (by decide))]
  · exact (update_thread ThreadData.id hid u).trans (h.id u)
  · dsimp only
    by_cases hut : u = t
    · subst hut
      rw [Function.update_self, hio]
    · rw [Function.update_of_ne hut, h.io u ((List.mem_cons.1 hu).resolve_left hut)]
  · dsimp only
    rw [Function.update_self, hcontext hret]

/-- The threads of a process after one that has been on no list is added to `p`. -/
theorem Represents.mem_append (h : Represents s free members) (ht : t ∈ s.live)
    (hproc : (s.manager.thr t).proc = none) (q : ℕ) (u : Fin InherentThreadNum) :
    u ∈ Function.update members p (members p ++ [t]) q ↔
      u ∈ s.live ∧
        (Function.update s.manager.thr t { s.manager.thr t with proc := some p } u).proc =
        some q := by
  have hq := h.members q u
  by_cases hut : u = t
  · subst hut
    rw [Function.update_self]
    by_cases hqp : q = p
    · subst hqp
      rw [Function.update_self]
      simp [ht]
    · rw [Function.update_of_ne hqp, hq, hproc]
      simp [Ne.symm hqp]
  · rw [Function.update_of_ne hut, ← hq]
    by_cases hqp : q = p
    · subst hqp
      rw [Function.update_self]
      simp [hut]
    · rw [Function.update_of_ne hqp]

theorem Represents.addThread (h : Represents s free members) (ht : t ∈ s.live)
    (hproc : (s.manager.thr t).proc = none) (p : ℕ) : ∃ m', s.manager.addThread p t = some m' ∧
      Represents { s with manager := m' } free (Function.update members p (members p ++ [t])) ∧
      (m'.thr t).io = (s.manager.thr t).io := by
  have hnot : ∀ j, .procList t ∉ ThreadManager.rings free members j := fun j hj => by
    obtain ⟨q, -, hq⟩ := procList_mem_rings.1 hj
    rw [((h.members q t).1 hq).2] at hproc
    exact Option.some_ne_none q hproc
  obtain ⟨L, hL, hr⟩ := h.rings.insertBefore (i := some p) rfl hnot
  have hmap :
      (members p).map Node.procList ++ [.procList t] = (members p ++ [t]).map Node.procList := by
    rw [List.map_append, List.map_singleton]
  rw [hmap, update_rings_some] at hr
  let d := { s.manager.thr t with proc := some p }
  have hid : d.id = (s.manager.thr t).id := rfl
  have hio : d.io = (s.manager.thr t).io := rfl
  refine ⟨{ s.manager.modThread t fun d => { d with proc := some p } with links := L }, ?_,
    ⟨hr, h.free, h.nodup, fun q u => ?_, h.curUsedThreadNum, h.threadNum, fun u => ?_,
      fun u hu => ?_⟩, ?_⟩
  · rw [Manager.addThread, if_pos hproc]
    change (s.manager.links.insertBefore _ _).bind _ = _
    rw [hL]
    rfl
  · exact h.mem_append ht hproc q u
  · exact (update_thread ThreadData.id hid u).trans (h.id u)
  · exact (update_thread ThreadData.io hio u).trans (h.io u hu)
  · exact update_thread ThreadData.io hio t

/-- The null process of a thread is followed. -/
theorem destroyThread_eq_none (hproc : (m.thr t).proc = none) : m.destroyThread debug t = none := by
  rw [Manager.destroyThread, hproc]
  rfl

/-- A thread leaves the list of its process, and is then free. -/
theorem Represents.free_again (h : Represents s free members) (ht : t ∈ s.live)
    (hmembers : members p = l ++ t :: l') : ∃ L L', s.manager.links.erase (.procList t) = some L ∧
      L.insertBefore .freeInherentThreadList (.commList t) = some L' ∧
      L'.Rings (ThreadManager.rings (free ++ [t]) (Function.update members p (l ++ l'))) := by
  have hp : ThreadManager.rings free members (some p) =
      ↑(Node.threadHeader p :: (l.map .procList ++ .procList t :: l'.map .procList)) := by
    rw [ThreadManager.rings, hmembers, List.map_append, List.map_cons]
  obtain ⟨L, hL, hr⟩ := h.rings.erase_middle hp
  rw [← List.map_append, update_rings_some] at hr
  have hnot : ∀ j, .commList t ∉ ThreadManager.rings free (Function.update members p (l ++ l')) j :=
    fun j hj => (h.free t).1 (commList_mem_rings.1 hj).2 ht
  obtain ⟨L', hL', hr'⟩ := hr.insertBefore (i := none) rfl hnot
  have hmap : free.map Node.commList ++ [.commList t] = (free ++ [t]).map Node.commList := by
    rw [List.map_append, List.map_singleton]
  rw [hmap, update_rings_none] at hr'
  exact ⟨L, L', hL, hL', hr'⟩

/-- The threads of a process after one of them has been destroyed. -/
theorem Represents.mem_update (h : Represents s free members)
    (hmembers : members p = l ++ t :: l') (q : ℕ)
    (u : Fin InherentThreadNum) : u ∈ Function.update members p (l ++ l') q ↔
    u ∈ members q ∧ u ≠ t := by
  have hnd := h.nodup_members p
  rw [hmembers] at hnd
  by_cases hqp : q = p
  · subst hqp
    have hut : u ∈ l ∨ u ∈ l' → u ≠ t := fun hu heq =>
      (List.nodup_cons.1 (List.nodup_middle.1 hnd)).1 (heq ▸ List.mem_append.2 hu)
    rw [Function.update_self, hmembers, List.mem_append, List.mem_append, List.mem_cons]
    tauto
  · rw [Function.update_of_ne hqp, iff_self_and]
    rintro hu rfl
    -- It is on the list of one process only.
    have hp := ((h.members p u).1 (hmembers ▸ List.mem_append_right _ List.mem_cons_self)).2
    exact hqp (Option.some.inj (((h.members q u).1 hu).2.symm.trans hp))

theorem Represents.destroyThread (h : Represents s free members) (ht : t ∈ s.live)
    (hproc : (s.manager.thr t).proc = some p) : ∃ l m', (members p).Perm (t :: l) ∧
      s.manager.destroyThread debug t = some m' ∧
      Represents ⟨m', s.live.erase t, s.manager.count t s.destroyed⟩ (free ++ [t])
        (Function.update members p l) := by
  obtain ⟨l, l', hmembers⟩ := List.append_of_mem ((h.members p t).2 ⟨ht, hproc⟩)
  -- The thread is taken off the list of its process and linked into the free list.
  obtain ⟨L, L', hL, hL', hr⟩ := h.free_again ht hmembers
  have hpos := List.length_pos_of_mem ht
  have hle := h.nodup.length_le_card
  rw [Fintype.card_fin] at hle
  let d := { s.manager.thr t with state := DemoOs.State.stopped }
  have hsame : d.proc = (s.manager.thr t).proc ∧ d.id = (s.manager.thr t).id ∧
      d.io = (s.manager.thr t).io :=
    ⟨rfl, rfl, rfl⟩
  refine ⟨l ++ l', { s.manager with
      links := L'
      thr := Function.update s.manager.thr t d
      threadCounter := Function.update s.manager.threadCounter p
        ((s.manager.threadCounter p + (2 ^ 12 - 1)) % 2 ^ 12)
      curUsedThreadNum := wordSub s.manager.curUsedThreadNum 1 },
    by rw [hmembers]; exact List.perm_middle, ?_,
    ⟨hr, fun u => ?_, h.nodup.erase t, fun q u => ?_, ?_, fun q => ?_, fun u => ?_, fun u hu => ?_⟩⟩
  · rw [Manager.destroyThread, hproc]
    simp only [Option.bind_eq_bind, Option.bind_some, hL, Manager.deallocate]
    -- The number of a thread is in range, so the assertion holds.
    have hid : decide (InherentThreadNum ≤ (s.manager.thr t).id) = false :=
      decide_eq_false (by rw [h.id]; exact not_le.2 t.isLt)
    rw [hid, Bool.and_false, if_neg Bool.false_ne_true]
    simp only [Manager.modThread, hL', Option.bind_some]
    rfl
  · rw [h.nodup.mem_erase_iff, List.mem_append, h.free, List.mem_singleton]
    tauto
  · rw [h.mem_update hmembers, h.members, h.nodup.mem_erase_iff,
      update_thread ThreadData.proc hsame.1]
    tauto
  · rw [h.curUsedThreadNum, List.length_erase_of_mem ht, wordSub_eq hpos (hle.trans_lt (by decide))]
  · have hq := h.threadNum q
    dsimp only [Manager.threadNum] at hq ⊢
    -- Only the counter of its own process is decremented, below zero if need be.
    by_cases hqp : q = p
    · subst hqp
      rw [Function.update_self, hq, Manager.count, if_pos hproc]
      omega
    · rw [Function.update_of_ne hqp, hq, Manager.count, hproc,
        if_neg fun heq => hqp (Option.some.inj heq).symm]
  · exact (update_thread ThreadData.id hsame.2.1 u).trans (h.id u)
  · exact (update_thread ThreadData.io hsame.2.2 u).trans (h.io u (List.mem_of_mem_erase hu))

/-! ## Runs -/

theorem Represents.step (h : Represents s free members) (hadm : s.Admits op)
    (hstep : s.step debug op = some s') :
    ∃ free' members', Represents s' free' members' := by
  -- A call that does not return makes no step.
  cases op with
  | createThread entry stackSize ret =>
    cases free with
    | nil =>
      rw [State.step, h.createThread_nil] at hstep
      exact absurd hstep.symm (Option.some_ne_none s')
    | cons t free =>
      obtain ⟨m', hcall, h', -⟩ := h.createThread debug entry stackSize ret
      rw [State.step, hcall] at hstep
      exact ⟨free, members, Option.some.inj hstep ▸ h'⟩
  | addThread p t =>
    obtain ⟨m', hcall, h', -⟩ := h.addThread hadm.1 hadm.2 p
    rw [State.step, hcall] at hstep
    obtain rfl := Option.some.inj hstep
    exact ⟨free, _, h'⟩
  | destroyThread t =>
    rw [State.step] at hstep
    cases hproc : (s.manager.thr t).proc with
    | none =>
      rw [destroyThread_eq_none hproc] at hstep
      exact absurd hstep.symm (Option.some_ne_none s')
    | some p =>
      obtain ⟨l, m', -, hcall, h'⟩ := h.destroyThread hadm hproc
      rw [hcall] at hstep
      obtain rfl := Option.some.inj hstep
      exact ⟨_, _, h'⟩

/-- After `init`, all threads are free. -/
theorem represents_start (archPpcIRet : ℕ) : ∃ m, (zero archPpcIRet).init = some m ∧
    Represents ⟨m, [], fun _ => 0⟩ (List.finRange InherentThreadNum) fun _ => [] := by
  -- Before `init` no list has a header, in zero-initialised storage.
  let none₀ : Option ℕ → Cycle Node := Function.update (rings [] fun _ => []) none Cycle.nil
  have hnone : ∀ {x : Node} {i}, x ∈ none₀ i → ∃ p, i = some p ∧ x = .threadHeader p := by
    intro x i hx
    cases i with
    | none => exact absurd hx (by simp [none₀])
    | some p => exact ⟨p, rfl, by simpa [none₀, rings] using hx⟩
  have h₀ : (zero archPpcIRet).links.Rings none₀ := by
    refine ⟨fun i => ?_, fun {i j x} hi hj => ?_, fun {x} hx => ?_⟩
    · cases i with
      | none => exact ⟨Cycle.nodup_nil, trivial⟩
      | some p =>
          exact ⟨Cycle.nodup_coe_iff.2 (List.nodup_singleton _),
          (Cycle.chain_singleton _ _).2 ⟨rfl, rfl⟩⟩
    · obtain ⟨p, rfl, rfl⟩ := hnone hi
      obtain ⟨q, rfl, hq⟩ := hnone hj
      rw [Node.threadHeader.inj hq]
    · cases x with
      | threadHeader p =>
          exact absurd (show Node.threadHeader p ∈ none₀ (some p) by simp [none₀, rings]) (hx _)
      | freeInherentThreadList => exact ⟨rfl, rfl⟩
      | commList t => exact ⟨rfl, rfl⟩
      | procList t => exact ⟨rfl, rfl⟩
  have h₁ := h₀.initRing (i := none) (x := .freeInherentThreadList) (by simp [none₀]) fun i hi => by
    obtain ⟨p, -, hx⟩ := hnone hi
    exact Node.noConfusion hx
  have hempty : Function.update none₀ none ↑([.freeInherentThreadList] : List Node) =
      rings [] fun _ => [] := by
    rw [Function.update_idem]
    exact update_rings_none []
  rw [hempty] at h₁
  have hfree : ∀ x ∈ (List.finRange InherentThreadNum).map Node.commList,
      ∀ j, x ∉ rings [] (fun _ => []) j := by
    intro x hx j hj
    obtain ⟨t, -, rfl⟩ := List.mem_map.1 hx
    exact List.not_mem_nil (commList_mem_rings.1 hj).2
  -- `init` appends the threads of the pool one after the other.
  obtain ⟨L, hL, hr⟩ := h₁.foldlM_insertBefore (i := none) rfl _ hfree
    ((List.nodup_finRange _).map fun _ _ => Node.commList.inj)
  rw [List.map_nil, List.nil_append, update_rings_none] at hr
  refine ⟨_, by rw [Manager.init]; dsimp only; rw [hL]; rfl, hr, fun t => ?_, List.nodup_nil,
    fun p t => ?_, rfl, fun p => ?_, fun t => rfl, fun t ht => absurd ht List.not_mem_nil⟩
  · simp
  · simp
  · show 0 = (2 ^ 12 - 0 % 2 ^ 12) % 2 ^ 12
    decide

/-- In every state of a run the free list holds the threads that are not live, and the list of a
    process those that have been added to it; the number of threads used is right. -/
theorem represents_of_run {archPpcIRet : ℕ} (hinit : (zero archPpcIRet).init = some m)
    (hrun : Run (State.step debug) State.Admits ⟨m, [], fun _ => 0⟩ s) :
    ∃ free members, Represents s free members := by
  obtain ⟨m', hm', h⟩ := represents_start archPpcIRet
  obtain rfl := Option.some.inj (hm'.symm.trans hinit)
  exact hrun.invariant (I := fun s => ∃ free members, Represents s free members)
    (fun ⟨_, _, hs⟩ hadm hstep => hs.step hadm hstep) ⟨_, _, h⟩

/-! ## When they are right -/

/-- The context is in the stack if both contexts are. -/
theorem inStack_contextAddr_iff (hret : ret ≠ 0) (hle : ret + stackSize ≤ 2 ^ 32) :
    InStack (contextAddr stackSize ret) stackSize ret ↔ 2 * sizeofContext ≤ stackSize := by
  constructor
  · rintro ⟨-, h, h'⟩
    simp only [contextAddr, wordSub, word, sizeofContext] at h h' ⊢
    omega
  · intro h
    refine ⟨?_, ?_, ?_⟩ <;> simp only [contextAddr, wordSub, word, sizeofContext] at h ⊢ <;> omega

/-- No thread has a process, and none has had one. -/
structure NoMembers (s : State) (free : List (Fin InherentThreadNum)) : Prop where
  represents : Represents s free fun _ => []
  destroyed : ∀ p, s.destroyed p = 0

theorem NoMembers.consistent (h : NoMembers s free) : s.Consistent :=
  h.represents.consistent_iff.2 fun p => by rw [h.destroyed]; rfl

theorem NoMembers.proc (h : NoMembers s free) (ht : t ∈ s.live) :
    (s.manager.thr t).proc = none := by
  cases hproc : (s.manager.thr t).proc with
  | none => rfl
  | some p => exact absurd ((h.represents.members p t).2 ⟨ht, hproc⟩) List.not_mem_nil

theorem NoMembers.createThread (h : NoMembers s (t :: free)) (debug : Bool)
    (entry stackSize ret : ℕ) :
    ∃ m', s.manager.createThread debug entry stackSize ret = some (some t, m') ∧
      NoMembers { s with manager := m', live := t :: s.live } free ∧
      (ret ≠ 0 → (m'.thr t).context = contextAddr stackSize ret) := by
  obtain ⟨m', hcall, h', hcontext⟩ := h.represents.createThread debug entry stackSize ret
  exact ⟨m', hcall, ⟨h', h.destroyed⟩, hcontext⟩

theorem NoMembers.correct_createThread (h : NoMembers s free) (hret : ret + stackSize ≤ 2 ^ 32) :
    s.Correct debug (.createThread entry stackSize ret) ↔
      s.Right (.createThread entry stackSize ret) := by
  cases free with
  | nil =>
    -- With no free thread the call does not return.
    have hempty := h.represents.isEmpty_iff.2 rfl
    have hcall : s.manager.createThread debug entry stackSize ret = none :=
      h.represents.createThread_nil entry stackSize ret
    refine iff_of_false (fun hcorrect => ?_) fun hright =>
      Bool.noConfusion (hempty.symm.trans hright.1)
    by_cases hz : ret = 0
    · obtain ⟨m', hm', -⟩ := hcorrect.2 hz
      exact Option.some_ne_none _ (hm'.symm.trans hcall)
    · obtain ⟨t, m', hm', -⟩ := hcorrect.1 hz
      exact Option.some_ne_none _ (hm'.symm.trans hcall)
  | cons t free =>
    obtain ⟨m', hcall, h', hcontext⟩ := h.createThread debug entry stackSize ret
    have hfull : s.manager.freeInherentThreadListIsEmpty = false :=
      Bool.eq_false_iff.2 fun hempty => List.cons_ne_nil t free (h.represents.isEmpty_iff.1 hempty)
    constructor
    · rintro ⟨hstack, hnull⟩
      have hz : ret ≠ 0 := fun hz => by
        obtain ⟨m'', hm'', -⟩ := hnull hz
        exact Option.some_ne_none t (Prod.mk.inj (Option.some.inj (hcall.symm.trans hm''))).1
      obtain ⟨u, m'', hm'', -, hin⟩ := hstack hz
      obtain ⟨hu, rfl⟩ := Prod.mk.inj (Option.some.inj (hcall.symm.trans hm''))
      obtain rfl := Option.some.inj hu
      exact ⟨hfull, hz, (inStack_contextAddr_iff hz hret).1 (hcontext hz ▸ hin)⟩
    · rintro ⟨-, hz, hsize⟩
      refine ⟨fun _ => ⟨t, m', hcall, h'.consistent, ?_⟩, fun hz' => absurd hz' hz⟩
      rw [hcontext hz]
      exact (inStack_contextAddr_iff hz hret).2 hsize

theorem NoMembers.correct_iff (h : NoMembers s free) (hadm : s.Admits op) : s.Correct debug op ↔
    s.Right op := by
  cases op with
  | createThread entry stackSize ret => exact h.correct_createThread hadm
  | addThread p t =>
    refine iff_of_false (fun ⟨s', hs', hcons, _⟩ => ?_) id
    obtain ⟨m', hcall, h', -⟩ := h.represents.addThread hadm.1 hadm.2 p
    rw [State.step, hcall] at hs'
    obtain rfl := Option.some.inj hs'
    -- The thread is on the list, and is not counted.
    have hlen := h'.consistent_iff.1 hcons p
    rw [h.destroyed] at hlen
    simp at hlen
  | destroyThread t =>
    refine iff_of_false (fun ⟨s', hs', _⟩ => ?_) id
    rw [State.step, destroyThread_eq_none (h.proc hadm)] at hs'
    exact Option.some_ne_none s' hs'.symm

theorem NoMembers.step (h : NoMembers s free) (hop : s.Right op)
    (hstep : s.step debug op = some s') :
    ∃ free', NoMembers s' free' := by
  cases op with
  | createThread entry stackSize ret =>
    cases free with
    | nil =>
      rw [State.step, h.represents.createThread_nil] at hstep
      exact absurd hstep.symm (Option.some_ne_none s')
    | cons t free =>
      obtain ⟨m', hcall, h', -⟩ := h.createThread debug entry stackSize ret
      rw [State.step, hcall] at hstep
      exact ⟨free, Option.some.inj hstep ▸ h'⟩
  | addThread p t => exact hop.elim
  | destroyThread t => exact hop.elim

end ThreadManager

end DemoOs
