import DemoOs.Lib.Run
import DemoOs.Mm.Vmm
import DemoOs.Task.Kernel
import Mathlib.Data.List.FinRange

/-!
# The process manager

`ProcManager` (`procmanager.cpp`). A process is one of a pool of 50 that are free or used, or is in
memory of the heap, which is zeroed. The links of the processes are in one link memory; the headers
of their page lists are nodes of the virtual memory manager, which `destroyProc` calls.

A process has headers of lists, of its threads, pages and children. `Process::init` would initialise
them, but nothing calls it: they are null, in the pool as in memory that has been zeroed. So a
process that is created is never as it should be, and it cannot be destroyed either, as
`releaseProcAllPages` follows a null link, or does not get the lock of the free list (`Vmm.locked`).
The calls that are right are those that create nothing (`processes_iff`).
-/

namespace DemoOs

namespace ProcManager

def InherentProcessNum : ℕ := 50

/-- `Procedure::ProcAttr`. -/
inductive ProcAttr
  | RealtimeProc
  | NormalProc
  deriving DecidableEq

/-- A process: one of `_inherentProcs`, or the memory at an address. -/
inductive Proc
  | inherent (i : Fin InherentProcessNum)
  | memory (a : ℕ)
  deriving DecidableEq

/-- Its number among the processes of the virtual memory manager. -/
def Proc.index : Proc → ℕ
  | inherent i => 2 * i
  | memory a => 2 * a + 1

/-- The nodes: the headers of the manager, and for every process its nodes and the headers of its
    lists. -/
inductive Node
  | usedHeader
  | freeHeader
  | procList (p : Proc)
  | pList (p : Proc)
  | threadHeader (p : Proc)
  | childHeader (p : Proc)
  deriving DecidableEq

/-- The fields of a process. -/
structure ProcData where
  processId : ℕ
  priority : ℕ
  state : DemoOs.State
  parent : Option Proc
  mainThread : Option ℕ

/-- The manager, with the memory that has been allocated from the heap. -/
structure Manager where
  links : Links Node
  data : Proc → ProcData
  ProcessId : ℕ
  curUsedProcNum : ℕ
  maxUsedProcNum : ℕ
  vmm : Vmm
  allocated : List ℕ

/-- Zeroed memory. -/
def ProcData.zero : ProcData := ⟨0, 0, .stopped, none, none⟩

/-- The links of a node become null. -/
def clear {α : Type*} [DecidableEq α] (L : Links α) (x : α) : Links α :=
  (L.setNext x none).setPrev x none

namespace Manager

def modData (m : Manager) (p : Proc) (f : ProcData → ProcData) : Manager :=
  { m with data := Function.update m.data p (f (m.data p)) }

/-- `init`. The root process is on no list. -/
def init (m : Manager) : Option Manager := do
  let links := (m.links.initRing .usedHeader).initRing .freeHeader
  let m := { m with
    links, ProcessId := InherentProcessNum + 1, curUsedProcNum := 0, maxUsedProcNum := 0 }
  let m := (List.finRange InherentProcessNum).foldl
    (fun m i => m.modData (.inherent i) fun d => { d with processId := i + 1 }) m
  let links ← ((List.finRange InherentProcessNum).map fun i => Node.procList (.inherent i)).foldlM
    (fun links x => links.insertBefore .freeHeader x) m.links
  some { m with links }

/-- `zero_block`, of a process. -/
def zero_block (m : Manager) (p : Proc) : Manager :=
  { m with
    links := clear (clear (clear (clear m.links (.procList p)) (.pList p)) (.threadHeader p))
      (.childHeader p)
    vmm := { m.vmm with links := clear m.vmm.links (.hdr (.proc p.index)) }
    data := Function.update m.data p .zero }

/-- `allocate`; `mem` is what `kheap.allocate` returns. That there is a free process of the pool is
    asserted. The null pointer is written through as any other. -/
def allocate (m : Manager) (mem : ℕ) : ProcAttr → Option (Option Proc × Manager)
  | .RealtimeProc =>
    match m.links.next .freeHeader with
    | some (.procList p) => do
      let links ← m.links.erase (.procList p)
      let curUsedProcNum := word (m.curUsedProcNum + 1)
      some (some p,
        { m with
          links, curUsedProcNum
          maxUsedProcNum := if curUsedProcNum > m.maxUsedProcNum then curUsedProcNum
            else m.maxUsedProcNum })
    | _ => none
  | .NormalProc =>
    let m := if mem = 0 then m else { m with allocated := mem :: m.allocated }
    let m := m.zero_block (.memory mem)
    -- `getNewProcessId`; the field has 16 bits.
    let m := m.modData (.memory mem) fun d => { d with processId := m.ProcessId % 2 ^ 16 }
    let m := { m with ProcessId := word (m.ProcessId + 1) }
    some (if mem = 0 then none else some (.memory mem), m)

def createProcess (m : Manager) (procAttr : ProcAttr) (mem : ℕ) :
    Option (Option Proc × Manager) := do
  let (newProc, m) ← m.allocate mem procAttr
  match newProc with
  | some p => do
    let links ← m.links.insertBefore .usedHeader (.procList p)
    some (some p, { m with links })
  | none => some (none, m)

/-- `deallocate`. -/
def deallocate (m : Manager) (p : Proc) : Option Manager :=
  if (m.data p).processId < InherentProcessNum + 1 then do
    let links ← m.links.insertBefore .freeHeader (.procList p)
    some { m with links, curUsedProcNum := wordSub m.curUsedProcNum 1 }
  else some m

/-- `destroyProc`, by the thread `tid`. -/
def destroyProc (m : Manager) (tid : ℕ) (p : Proc) : Option Manager := do
  let m := m.modData p fun d => { d with state := .stopped }
  let links ← if (m.data p).parent.isSome then m.links.erase (.pList p) else some m.links
  let links ← links.erase (.procList p)
  let vmm ← m.vmm.releaseProcAllPages tid p.index
  let m := { m with links, vmm }
  let m := m.modData p fun d => { d with mainThread := none, priority := 0, parent := none }
  m.deallocate p

end Manager

/-! ## Runs -/

inductive Op
  | createProcess (procAttr : ProcAttr) (mem : ℕ)
  | destroyProc (tid : ℕ) (p : Proc)

def Manager.step (m : Manager) : Op → Option Manager
  | .createProcess procAttr mem => (m.createProcess procAttr mem).map Prod.snd
  | .destroyProc tid p => m.destroyProc tid p

/-- The processes on the list of a header. -/
def Manager.On (m : Manager) (header : Node) (p : Proc) : Prop :=
  m.links.Reaches header (.procList p)

/-- Memory the heap gives is not in use, and processes that are destroyed are used. -/
def Manager.Admits (m : Manager) : Op → Prop
  | .createProcess _ mem => mem ∉ m.allocated
  | .destroyProc _ p => m.On .usedHeader p

/-- Every process that is used has headers of lists that are rings. -/
def Manager.WellFormed (m : Manager) : Prop :=
  ∀ p, m.On .usedHeader p → (∃ c, .threadHeader p ∈ c ∧ m.links.IsRing c) ∧
    (∃ c, .childHeader p ∈ c ∧ m.links.IsRing c) ∧
    ∃ c, .hdr (.proc p.index) ∈ c ∧ m.vmm.links.IsRing c

/-- The lists, the counter and the memory in use are the same. -/
structure Manager.Same (m m' : Manager) : Prop where
  used : ∀ p, m'.On .usedHeader p ↔ m.On .usedHeader p
  free : ∀ p, m'.On .freeHeader p ↔ m.On .freeHeader p
  curUsedProcNum : m'.curUsedProcNum = m.curUsedProcNum
  allocated : ∀ a, a ∈ m'.allocated ↔ a ∈ m.allocated

/-- There is no process, or no memory for one. -/
def Manager.Exhausted (m : Manager) (mem : ℕ) : ProcAttr → Prop
  | .RealtimeProc => ∀ p, ¬m.On .freeHeader p
  | .NormalProc => mem = 0

/-- A call follows no null link, and leaves the processes that are used well formed; null is
    returned just if there is none to create, and a process that is created may be destroyed, and
    then everything is as it was. -/
def Manager.Correct (m : Manager) : Op → Prop
  | .createProcess procAttr mem => ∃ r m', m.createProcess procAttr mem = some (r, m') ∧
      m'.WellFormed ∧
      (r = none ↔ m.Exhausted mem procAttr) ∧
      ∀ p, r = some p → ∀ tid, ∃ m'', m'.destroyProc tid p = some m'' ∧ m.Same m''
  | .destroyProc tid p => ∃ m', m.destroyProc tid p = some m' ∧ m'.WellFormed

/-- A process is created, if there is one. -/
def Op.Creates : Op → Prop
  | .createProcess .RealtimeProc _ => True
  | .createProcess .NormalProc mem => mem ≠ 0
  | .destroyProc .. => False

/-- Zero-initialised storage, the virtual memory manager having been started. -/
def zero (vmm : Vmm) : Manager := ⟨⟨fun _ => none, fun _ => none⟩, fun _ => .zero, 0, 0, 0, vmm, []⟩

/-- The headers of the page lists are null. -/
def NoPageLists (vmm : Vmm) : Prop := ∀ i, vmm.links.next (.hdr (.proc i)) = none

variable {m m' : Manager} {p : Proc} {vmm : Vmm} {x : Node} {mem : ℕ}
    {procAttr : ProcAttr} {op : Op}

/-! ## The start -/

/-- The processes of the pool. -/
def pool : List Node := (List.finRange InherentProcessNum).map fun i => .procList (.inherent i)

/-- Nothing is used, and the pool is free. -/
def lists : Bool → Cycle Node
  | false => ↑([.usedHeader] : List Node)
  | true => ↑(.freeHeader :: pool : List Node)

/-- No process has been created. -/
structure Start (m : Manager) : Prop where
  rings : m.links.Rings lists
  noPageLists : NoPageLists m.vmm

theorem mem_pool : x ∈ pool ↔ ∃ i, x = .procList (.inherent i) := by
  simp [pool, eq_comm]

theorem nodup_pool : pool.Nodup :=
  (List.nodup_finRange _).map fun _ _ h => Proc.inherent.inj (Node.procList.inj h)

/-- The first process of the pool. -/
theorem pool_eq_cons : ∃ i l, pool = .procList (.inherent i) :: l :=
  ⟨⟨0, by decide⟩, _, rfl⟩

theorem foldl_modData (l : List (Fin InherentProcessNum))
    (f : Fin InherentProcessNum → ProcData → ProcData) :
    (l.foldl (fun m i => m.modData (.inherent i) (f i)) m).links = m.links ∧
      (l.foldl (fun m i => m.modData (.inherent i) (f i)) m).vmm = m.vmm ∧
      (l.foldl (fun m i => m.modData (.inherent i) (f i)) m).allocated = m.allocated := by
  induction l generalizing m with
  | nil => exact ⟨rfl, rfl, rfl⟩
  | cons i l ih => exact ih

/-- After `init`, nothing is used. -/
theorem start_of_init (hvmm : NoPageLists vmm) :
    ∃ m, (zero vmm).init = some m ∧ Start m ∧ m.allocated = [] := by
  have h₀ : (zero vmm).links.Rings fun _ : Bool => Cycle.nil := .of_null fun _ => ⟨rfl, rfl⟩
  have h₁ := h₀.initRing (i := false) (x := .usedHeader) rfl fun _ => Cycle.notMem_nil _
  have hused : ∀ x ≠ Node.usedHeader, ∀ j,
      x ∉ Function.update (fun _ => Cycle.nil) false ↑([.usedHeader] : List Node) j := by
    intro x hx j
    cases j with
    | false => simpa using hx
    | true => exact Cycle.notMem_nil x
  have h₂ := h₁.initRing (i := true) (x := .freeHeader) rfl (hused _ Node.noConfusion)
  have hpool : ∀ x ∈ pool, ∀ j, x ∉ Function.update (Function.update (fun _ => Cycle.nil) false
      ↑([.usedHeader] : List Node)) true ↑([.freeHeader] : List Node) j := by
    intro x hx j
    obtain ⟨i, rfl⟩ := mem_pool.1 hx
    cases j with
    | false => exact hused _ Node.noConfusion false
    | true => simp
  -- The processes of the pool are linked behind the header in the order of the array.
  obtain ⟨L, hL, hr⟩ := h₂.foldlM_insertBefore (Function.update_self ..) pool hpool nodup_pool
  have hlists : Function.update (Function.update (Function.update (fun _ => Cycle.nil) false
      ↑([.usedHeader] : List Node)) true ↑([.freeHeader] : List Node)) true
        ↑(Node.freeHeader :: ([] ++ pool)) = lists := by
    funext j
    cases j <;> rfl
  rw [hlists] at hr
  let m := { zero vmm with
    links := ((zero vmm).links.initRing .usedHeader).initRing .freeHeader
    ProcessId := InherentProcessNum + 1, curUsedProcNum := 0, maxUsedProcNum := 0 }
  obtain ⟨hlinks, hvmm', hallocated⟩ := foldl_modData (m := m) (List.finRange InherentProcessNum)
    fun i d => { d with processId := i + 1 }
  refine ⟨{ (List.finRange InherentProcessNum).foldl
    (fun m i => m.modData (.inherent i) fun d => { d with processId := i + 1 }) m with links := L },
    ?_, ⟨hr, fun i => ?_⟩, hallocated⟩
  · rw [Manager.init]
    dsimp only
    rw [hlinks]
    simp only [m]
    rw [← pool, hL]
    rfl
  · dsimp only
    rw [hvmm']
    exact hvmm i

/-! ## What is created -/

/-- Clearing null links does nothing. -/
theorem clear_eq {α : Type*} [DecidableEq α] {L : Links α} {x : α} (hn : L.next x = none)
    (hp : L.prev x = none) :
    clear L x = L := by
  refine Links.ext (funext fun y => ?_) (funext fun y => ?_)
  · rw [clear, Links.setPrev_next, Links.setNext_next]
    split_ifs with h
    · rw [h, hn]
    · rfl
  · rw [clear, Links.setPrev_prev, Links.setNext_prev]
    split_ifs with h
    · rw [h, hp]
    · rfl

theorem notMem_lists (hx : x ≠ .usedHeader) (hx' : x ≠ .freeHeader)
    (hpool : ∀ i, x ≠ .procList (.inherent i))
    (j : Bool) : x ∉ lists j := by
  have hnot : x ∉ pool := fun h => by
    obtain ⟨i, hi⟩ := mem_pool.1 h
    exact hpool i hi
  cases j with
  | false => simpa [lists] using hx
  | true => simpa [lists, hx'] using hnot

theorem Start.zero_block (h : Start m) (a : ℕ) : Start (m.zero_block (.memory a)) := by
  have hnull : ∀ y : Node, (∀ j, y ∉ lists j) → clear m.links y = m.links := fun y hy =>
    clear_eq (h.rings.null hy).1 (h.rings.null hy).2
  refine ⟨?_, fun i => ?_⟩
  · rw [Manager.zero_block]
    dsimp only
    rw [hnull _ (notMem_lists Node.noConfusion Node.noConfusion fun i hi => by simp at hi),
      hnull _ (notMem_lists Node.noConfusion Node.noConfusion fun i => Node.noConfusion),
      hnull _ (notMem_lists Node.noConfusion Node.noConfusion fun i => Node.noConfusion),
      hnull _ (notMem_lists Node.noConfusion Node.noConfusion fun i => Node.noConfusion)]
    exact h.rings
  · change (clear m.vmm.links _).next _ = none
    rw [clear, Links.setPrev_next, Links.setNext_next]
    split_ifs
    · rfl
    · exact h.noPageLists i

/-- A process that is used is not well formed if the header of its threads is on no list. -/
theorem not_wellFormed {R : Bool → Cycle Node} (h : m.links.Rings R) (hu : .usedHeader ∈ R false)
    (hp : .procList p ∈ R false) (ht : ∀ j, .threadHeader p ∉ R j) : ¬m.WellFormed := by
  intro hwf
  obtain ⟨⟨c, hc, hring⟩, -⟩ := hwf p (((h.ring false).reaches_iff hu).2 hp)
  obtain ⟨y, -, hy⟩ := hring.exists_next hc
  exact absurd (hy.1.symm.trans (h.null ht).1) (Option.some_ne_none y)

/-- A process of the pool is created from the head of the free list. -/
theorem Start.createProcess_realtime (h : Start m) (mem : ℕ) :
    ∃ p m', m.createProcess .RealtimeProc mem = some (some p, m') ∧ ¬m'.WellFormed ∧
      NoPageLists m'.vmm := by
  obtain ⟨i, l, hpool⟩ := pool_eq_cons
  have hlist : lists true = ↑(Node.freeHeader :: ([] ++ .procList (.inherent i) :: l)) := by
    rw [lists, hpool, List.nil_append]
  have hnd := nodup_pool
  rw [hpool] at hnd
  have hnext : m.links.next .freeHeader = some (.procList (.inherent i)) := by
    have hring := h.rings.ring true
    rw [hlist] at hring
    exact hring.linked_cons_cons.1
  obtain ⟨L, hL, hr⟩ := h.rings.erase_middle hlist
  -- The process is on none of the two lists now.
  have hnot : ∀ j, Node.procList (.inherent i) ∉
      Function.update lists true ↑(Node.freeHeader :: ([] ++ l)) j := by
    intro j
    cases j with
    | false => simp [lists]
    | true => simpa using (List.nodup_cons.1 hnd).1
  obtain ⟨L', hL', hr'⟩ :=
    hr.insertBefore (i := false) (Function.update_of_ne Bool.false_ne_true ..) hnot
  let curUsedProcNum := word (m.curUsedProcNum + 1)
  let m' := { m with
    links := L'
    curUsedProcNum
    maxUsedProcNum := if curUsedProcNum > m.maxUsedProcNum then curUsedProcNum
      else m.maxUsedProcNum }
  refine ⟨.inherent i, m', ?_, not_wellFormed (m := m') (p := .inherent i) hr' ?_ ?_ ?_,
    h.noPageLists⟩
  · rw [Manager.createProcess, Manager.allocate, hnext]
    simp only [hL, hL', Option.bind_eq_bind, Option.bind_some]
    rfl
  · simp
  · simp
  · intro j
    have hthread : Node.threadHeader (.inherent i) ∉ pool := fun hmem => by
      obtain ⟨k, hk⟩ := mem_pool.1 hmem
      exact Node.noConfusion hk
    rw [hpool] at hthread
    cases j with
    | false => simp
    | true => simpa using hthread

/-- Zeroing memory for a process leaves the lists alone. -/
theorem Start.allocate_normal (h : Start m) (mem : ℕ) : ∃ m',
    m.allocate mem .NormalProc = some (if mem = 0 then none else some (.memory mem), m') ∧
      Start m' := by
  have h₁ : Start (if mem = 0 then m else { m with allocated := mem :: m.allocated }) := by
    split_ifs
    · exact h
    · exact ⟨h.rings, h.noPageLists⟩
  exact ⟨_, rfl, (h₁.zero_block mem).rings, (h₁.zero_block mem).noPageLists⟩

/-- A process is created in memory of the heap. -/
theorem Start.createProcess_normal (h : Start m) (hmem : mem ≠ 0) :
    ∃ p m', m.createProcess .NormalProc mem = some (some p, m') ∧ ¬m'.WellFormed ∧
      NoPageLists m'.vmm := by
  obtain ⟨m₁, halloc, h₁⟩ := h.allocate_normal mem
  rw [if_neg hmem] at halloc
  have hnot : ∀ j, Node.procList (.memory mem) ∉ lists j :=
    notMem_lists Node.noConfusion Node.noConfusion fun i hi =>
      Proc.noConfusion (Node.procList.inj hi)
  obtain ⟨L, hL, hr⟩ := h₁.rings.insertBefore (i := false) rfl hnot
  refine ⟨.memory mem, { m₁ with links := L }, ?_,
    not_wellFormed (m := { m₁ with links := L }) (p := .memory mem) hr ?_ ?_ ?_, h₁.noPageLists⟩
  · rw [Manager.createProcess, halloc]
    simp only [Option.bind_eq_bind, Option.bind_some, hL]
  · simp
  · simp
  · intro j
    cases j with
    | false => simp
    | true =>
      exact notMem_lists Node.noConfusion Node.noConfusion (fun i => Node.noConfusion) true

/-- Where there is no memory, nothing is created. -/
theorem Start.createProcess_zero (h : Start m) :
    ∃ m', m.createProcess .NormalProc 0 = some (none, m') ∧ Start m' := by
  obtain ⟨m₁, halloc, h₁⟩ := h.allocate_normal 0
  exact ⟨m₁, by rw [Manager.createProcess, halloc]; rfl, h₁⟩

/-- The pages of a process are walked along from the null link. -/
theorem destroyProc_eq_none (h : NoPageLists m.vmm) (tid : ℕ) (p : Proc) :
    m.destroyProc tid p = none := by
  have hbody (freePageLock : PageLock) :
      Vmm.releaseAllPages p.index { m.vmm with freePageLock } = none := by
    rw [Vmm.releaseAllPages, h p.index]
    rfl
  have hpages : m.vmm.releaseProcAllPages tid p.index = none := by
    rw [Vmm.releaseProcAllPages, Vmm.locked]
    cases m.vmm.freePageLock.lock tid with
    | none => rfl
    | some freePageLock =>
      simp only [Option.bind_eq_bind, Option.bind_some, hbody]
      rfl
  rw [Manager.destroyProc]
  dsimp only [Manager.modData]
  rw [hpages]
  simp

/-- As long as nothing is used, all is well formed. -/
theorem Start.wellFormed (h : Start m) : m.WellFormed := by
  intro p hp
  have hmem := ((h.rings.ring false).reaches_iff (by simp [lists])).1 hp
  simp [lists] at hmem

/-- A call that creates a process is not right. -/
theorem not_correct_of_createProcess {r : Proc}
    (hcall : m.createProcess procAttr mem = some (some r, m'))
    (hwf : ¬m'.WellFormed) : ¬m.Correct (.createProcess procAttr mem) := by
  rintro ⟨r', m'', hcall', hwf', -⟩
  obtain rfl := (Prod.mk.inj (Option.some.inj (hcall.symm.trans hcall'))).2
  exact hwf hwf'

theorem Start.correct_iff (h : Start m) (hadm : m.Admits op) : m.Correct op ↔ ¬op.Creates := by
  cases op with
  | createProcess procAttr mem =>
    cases procAttr with
    | RealtimeProc =>
      obtain ⟨p, m', hcall, hwf, -⟩ := h.createProcess_realtime mem
      exact iff_of_false (not_correct_of_createProcess hcall hwf) (not_not_intro trivial)
    | NormalProc =>
      by_cases hmem : mem = 0
      · subst hmem
        obtain ⟨m', hcall, h'⟩ := h.createProcess_zero
        refine iff_of_true ⟨none, m', hcall, h'.wellFormed, iff_of_true rfl rfl, ?_⟩
          (not_not_intro rfl)
        exact fun p hp => absurd hp.symm (Option.some_ne_none p)
      · obtain ⟨p, m', hcall, hwf, -⟩ := h.createProcess_normal hmem
        exact iff_of_false (not_correct_of_createProcess hcall hwf) (not_not_intro hmem)
  | destroyProc tid p =>
    have hmem := ((h.rings.ring false).reaches_iff (by simp [lists])).1 hadm
    simp [lists] at hmem

theorem Start.step (h : Start m) (hadm : m.Admits op) (hop : ¬op.Creates)
    (hstep : m.step op = some m') :
    Start m' := by
  cases op with
  | createProcess procAttr mem =>
    cases procAttr with
    | RealtimeProc => exact absurd trivial hop
    | NormalProc =>
      obtain rfl : mem = 0 := not_not.1 hop
      obtain ⟨m₁, hcall, h₁⟩ := h.createProcess_zero
      rw [Manager.step, hcall, Option.map_some] at hstep
      exact Option.some.inj hstep ▸ h₁
  | destroyProc tid p =>
    have hmem := ((h.rings.ring false).reaches_iff (by simp [lists])).1 hadm
    simp [lists] at hmem

/-- The calls of a run are right just if none of them creates a process. -/
theorem processes_iff (hvmm : NoPageLists vmm) {ops : List Op} (hinit : (zero vmm).init = some m)
    (hops : Admissible Manager.step Manager.Admits m ops) :
    Admissible Manager.step Manager.Correct m ops ↔
      Admissible Manager.step (fun _ op => ¬op.Creates) m ops := by
  obtain ⟨m', hm', hstart, -⟩ := start_of_init hvmm
  obtain rfl := Option.some.inj (hm'.symm.trans hinit)
  exact Admissible.iff (I := Start) (fun h hadm => h.correct_iff hadm)
    (fun h hadm hop hstep => h.step hadm hop hstep) hstart hops

/-- A virtual memory manager whose headers are null. -/
def nullVmm : Vmm :=
  ⟨⟨fun _ => none, fun _ => none⟩, fun _ => 0, fun _ => 0, 0, .zero, ⟨fun _ => 0, .init 0 0⟩⟩

theorem noPageLists_nullVmm : NoPageLists nullVmm := fun _ => rfl

/-- A request for which there is no memory is right. -/
theorem correct_noMemory : ∃ m, (zero nullVmm).init = some m ∧
    Admissible Manager.step Manager.Correct m [.createProcess .NormalProc 0] := by
  obtain ⟨m, hm, -, hallocated⟩ := start_of_init noPageLists_nullVmm
  have hadmits : m.Admits (.createProcess .NormalProc 0) := by
    rw [Manager.Admits, hallocated]
    exact List.not_mem_nil
  have hops : Admissible Manager.step Manager.Admits m [.createProcess .NormalProc 0] :=
    ⟨hadmits, fun _ _ => trivial⟩
  exact ⟨m, hm,
    (processes_iff noPageLists_nullVmm hm hops).2 ⟨not_not_intro rfl, fun _ _ => trivial⟩⟩

/-- The first process of the pool is not well formed, and to destroy it follows a null link. -/
theorem not_correct_createProcess : ∃ m p m', (zero nullVmm).init = some m ∧
    m.createProcess .RealtimeProc 0 = some (some p, m') ∧ ¬m'.WellFormed ∧
      (∀ tid, m'.destroyProc tid p = none) ∧
      ¬Admissible Manager.step Manager.Correct m [.createProcess .RealtimeProc 0] := by
  obtain ⟨m, hm, hstart, -⟩ := start_of_init noPageLists_nullVmm
  obtain ⟨p, m', hcall, hwf, hnull⟩ := hstart.createProcess_realtime 0
  exact ⟨m, p, m', hm, hcall, hwf, fun tid => destroyProc_eq_none hnull tid p,
    fun h => not_correct_of_createProcess hcall hwf h.1⟩

end ProcManager

end DemoOs
