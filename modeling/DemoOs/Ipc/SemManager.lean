import DemoOs.Lib.Ring
import DemoOs.Lib.Run
import DemoOs.Types
import Mathlib.Data.List.FinRange

/-!
# The pools of semaphores and mutexes

`SemManager` (`semmanager.cpp`), as a single thread calls it, with what its calls need of
`semaphore.cpp` and `mutex.cpp`. An object that is free is on the list of its pool by its own list
of waiters. Two of the mutexes, the guards, are in no pool, and protect the lists.

`init` does not initialise the guards: they have no permit, and lists of waiters that are null. A
thread whose id is not the holder in zero-initialised storage waits in its first call, or rather
follows a null link there; and the thread 0 is the holder, but follows a null link in `unlock`. So
no call is right (`calls_iff`). If the guards were initialised as any mutex is, all calls would be
(`correct_of_initGuards`).
-/

namespace DemoOs

namespace SemManager

/-- `InherentSemaphoreNum`, and `InherentMutexNum`. -/
def InherentNum : ℕ := 200

abbrev Index := Fin InherentNum

/-- The two pools. -/
inductive Kind
  | semaphore
  | mutex
  deriving DecidableEq

/-- The nodes: the headers of the lists, and the list of waiters of each object. -/
inductive Node
  | listHeader (k : Kind)
  | waiterList (k : Kind) (i : Index)
  deriving DecidableEq

/-- The manager. The value of a mutex is that of its semaphore. -/
structure Manager where
  links : Links Node
  val : Kind × Index → ℤ
  holder : Index → ℕ
  depth : Index → ℤ

/-- `Mutex::INVALID`. -/
def INVALID : ℕ := 0xFFFF

/-- The mutex that protects a pool: `_mutexes[0]`, and `_mutexes[1]`. -/
def guard : Kind → Index
  | .semaphore => ⟨0, by decide⟩
  | .mutex => ⟨1, by decide⟩

/-- The objects of a pool: all semaphores, and the mutexes that are no guards. -/
def objects : Kind → List Index
  | .semaphore => List.finRange InherentNum
  | .mutex => (List.finRange InherentNum).drop 2

namespace Manager

/-- `Semaphore::init`, also that of the semaphore of a mutex. -/
def initSem (m : Manager) (k : Kind) (i : Index) (val : ℤ) : Manager :=
  { m with val := Function.update m.val (k, i) val, links := m.links.initRing (.waiterList k i) }

/-- `Mutex::init`. -/
def initMutex (m : Manager) (i : Index) : Manager :=
  let m := m.initSem .mutex i 1
  { m with depth := Function.update m.depth i 0, holder := Function.update m.holder i INVALID }

/-- `Semaphore::lock`, of a mutex. A caller that would wait does not return. -/
def lockSem (m : Manager) (i : Index) : Option Manager :=
  let val := sint (m.val (.mutex, i) - 1)
  if val < 0 then none else some { m with val := Function.update m.val (.mutex, i) val }

/-- `Semaphore::unlock`, of a mutex. There is no other thread that could be waiting. -/
def unlockSem (m : Manager) (i : Index) : Option Manager := do
  let m := { m with val := Function.update m.val (.mutex, i) (sint (m.val (.mutex, i) + 1)) }
  let p ← m.links.next (.waiterList .mutex i)
  let _ ← m.links.next p
  if p = .waiterList .mutex i then some m else none

/-- `Mutex::lock`, by the thread `tid`, with the assertions of `mutex.cpp`. -/
def lock (m : Manager) (tid : ℕ) (i : Index) : Option Manager :=
  if m.val (.mutex, i) < 2 then
    if tid ≠ m.holder i then do
      let m ← m.lockSem i
      if m.holder i = INVALID ∧ m.depth i = 0 then
        some { m with
          holder := Function.update m.holder i tid,
            depth := Function.update m.depth i (sint (m.depth i + 1)) }
      else none
    else some { m with depth := Function.update m.depth i (sint (m.depth i + 1)) }
  else none

/-- `Mutex::unlock`. -/
def unlock (m : Manager) (tid : ℕ) (i : Index) : Option Manager :=
  if m.val (.mutex, i) < 1 ∧ tid = m.holder i ∧ m.depth i > 0 then
    let m := { m with depth := Function.update m.depth i (sint (m.depth i - 1)) }
    if m.depth i = 0 then { m with holder := Function.update m.holder i INVALID }.unlockSem i
    else some m
  else none

/-- `init`. -/
def init (m : Manager) : Option Manager := do
  let links := (m.links.initRing (.listHeader .semaphore)).initRing (.listHeader .mutex)
  let links ← ((objects .semaphore).map (Node.waiterList .semaphore)).foldlM
    (fun links x => links.insertBefore (.listHeader .semaphore) x) links
  let links ← ((objects .mutex).map (Node.waiterList .mutex)).foldlM
    (fun links x => links.insertBefore (.listHeader .mutex) x) links
  some { m with links }

/-- The first object of the list of a pool, if there is one, which is then initialised. -/
def take (m : Manager) (k : Kind) (init : Manager → Index → Manager) :
    Option (Option Index × Manager) := do
  let p ← m.links.next (.listHeader k)
  match p with
  | .listHeader _ => some (none, m)
  | .waiterList _ i => do
    let links ← m.links.erase (.waiterList k i)
    some (some i, init { m with links } i)

def allocateWith (m : Manager) (tid : ℕ) (k : Kind) (init : Manager → Index → Manager) :
    Option (Option Index × Manager) := do
  let m ← m.lock tid (guard k)
  let (ret, m) ← m.take k init
  let m ← m.unlock tid (guard k)
  some (ret, m)

/-- `allocate(initVal)`. -/
def allocateSem (m : Manager) (tid : ℕ) (initVal : ℤ) : Option (Option Index × Manager) :=
  m.allocateWith tid .semaphore fun m i => m.initSem .semaphore i initVal

/-- `allocate()`. -/
def allocateMutex (m : Manager) (tid : ℕ) : Option (Option Index × Manager) :=
  m.allocateWith tid .mutex initMutex

/-- `deallocate`, of a semaphore and of a mutex, with its assertion. -/
def deallocate (m : Manager) (tid : ℕ) (k : Kind) (i : Index) : Option Manager :=
  if m.links.next (.waiterList k i) = some (.waiterList k i) then do
    let m ← m.lock tid (guard k)
    let links ← m.links.insertBefore (.listHeader k) (.waiterList k i)
    { m with links }.unlock tid (guard k)
  else none

end Manager

/-! ## Runs -/

/-- The manager, and the objects that are out. -/
structure State where
  manager : Manager
  out : Kind → List Index

/-- The calls, and what may become of an object that is out, by `lock`, `unlock` and `clear`, until
    it is idle. -/
inductive Op
  | allocateSem (initVal : ℤ)
  | allocateMutex
  | deallocate (k : Kind) (i : Index)
  | use (k : Kind) (i : Index) (val : ℤ) (holder : ℕ) (depth : ℤ)

def State.allocated (s : State) (k : Kind) (r : Option Index × Manager) : State :=
  ⟨r.2, Function.update s.out k (r.1.toList ++ s.out k)⟩

def State.step (tid : ℕ) (s : State) : Op → Option State
  | .allocateSem initVal => (s.manager.allocateSem tid initVal).map (s.allocated .semaphore)
  | .allocateMutex => (s.manager.allocateMutex tid).map (s.allocated .mutex)
  | .deallocate k i => (s.manager.deallocate tid k i).map fun m =>
      ⟨m, Function.update s.out k ((s.out k).erase i)⟩
  | .use k i val holder depth =>
    let m := { s.manager with val := Function.update s.manager.val (k, i) val }
    some { s with
      manager := match k with
        | .semaphore => m
        | .mutex =>
          { m with
            holder := Function.update m.holder i holder
            depth := Function.update m.depth i depth } }

/-- Objects that are deallocated or used are out. -/
def State.Admits (s : State) : Op → Prop
  | .deallocate k i => i ∈ s.out k
  | .use k i _ _ _ => i ∈ s.out k
  | _ => True

/-- Nobody waits for an object. -/
def Manager.Idle (m : Manager) (k : Kind) (i : Index) : Prop :=
  m.links.IsRing ↑([.waiterList k i] : List Node)

/-- A call returns; null is returned only if all objects are out, and an object that is returned was
    not out, and is as `fresh` says. -/
def State.Allocates (s : State) (k : Kind) (fresh : Manager → Index → Prop)
    (call : Option (Option Index × Manager)) : Prop :=
  ∃ r m, call = some (r, m) ∧ (r = none → ∀ i ∈ objects k, i ∈ s.out k) ∧
    ∀ i, r = some i → i ∉ s.out k ∧ m.Idle k i ∧ fresh m i

/-- A call returns and does what it should. -/
def State.Correct (tid : ℕ) (s : State) : Op → Prop
  | .allocateSem initVal => s.Allocates .semaphore (fun m i => m.val (.semaphore, i) = initVal)
      (s.manager.allocateSem tid initVal)
  | .allocateMutex => s.Allocates .mutex
      (fun m i => m.val (.mutex, i) = 1 ∧ m.holder i = INVALID ∧
      m.depth i = 0) (s.manager.allocateMutex tid)
  | .deallocate k i => ∃ m, s.manager.deallocate tid k i = some m ∧
      m.links.Reaches (.listHeader k) (.waiterList k i)
  | .use .. => True

/-- Zero-initialised storage. -/
def zero : Manager := ⟨⟨fun _ => none, fun _ => none⟩, fun _ => 0, fun _ => 0, fun _ => 0⟩

/-- The guards, initialised as mutexes are. -/
def Manager.initGuards (m : Manager) : Manager :=
  (m.initMutex (guard .semaphore)).initMutex (guard .mutex)

variable {m m' : Manager} {s s' : State} {k k' : Kind} {i j : Index} {tid : ℕ}
    {out free : Kind → List Index}
  {l : List Index} {init : Manager → Index → Manager} {op : Op}

/-! ## The lists -/

theorem mem_objects_mutex : i ∈ objects .mutex ↔ 2 ≤ (i : ℕ) := by
  rw [objects, List.mem_drop_iff_getElem]
  constructor
  · rintro ⟨n, hn, rfl⟩
    simp
  · intro hi
    have hlt := i.isLt
    refine ⟨i - 2, by simp only [List.length_finRange]; omega, ?_⟩
    rw [List.getElem_finRange]
    exact Fin.ext (Nat.add_sub_cancel' hi)

theorem mem_objects_semaphore : i ∈ objects .semaphore := List.mem_finRange i

theorem nodup_objects (k : Kind) : (objects k).Nodup := by
  cases k with
  | semaphore => exact List.nodup_finRange _
  | mutex => exact (List.nodup_finRange _).sublist (List.drop_sublist 2 _)

/-- The guards are in no pool. -/
theorem guard_ne (hi : i ∈ objects k) (k' : Kind) : (k, i) ≠ (.mutex, guard k') := by
  rintro heq
  obtain ⟨rfl, rfl⟩ := Prod.mk.inj heq
  have hle := mem_objects_mutex.1 hi
  cases k' with
  | semaphore => exact absurd hle (by decide)
  | mutex => exact absurd hle (by decide)

/-- The lists of the pools; an object that is not free has a list of waiters, which is empty. -/
def rings (free : Kind → List Index) : Node → Cycle Node
  | .listHeader k => ↑(.listHeader k :: (free k).map (.waiterList k) : List Node)
  | .waiterList k i => if i ∈ free k then Cycle.nil else ↑([.waiterList k i] : List Node)

theorem mem_rings {x : Node} : .waiterList k i ∈ rings free x ↔
    (x = .listHeader k ∧ i ∈ free k) ∨ (x = .waiterList k i ∧ i ∉ free k) := by
  cases x with
  | listHeader k' =>
    by_cases hk : k' = k
    · subst hk
      simp [rings]
    · simp [rings, hk]
  | waiterList k' i' =>
    by_cases hi : i' ∈ free k'
    · simp only [rings, if_pos hi]
      constructor
      · exact fun h => absurd h (Cycle.notMem_nil _)
      · rintro (⟨h, -⟩ | ⟨h, hnot⟩)
        · exact absurd h Node.noConfusion
        · obtain ⟨rfl, rfl⟩ := Node.waiterList.inj h
          exact absurd hi hnot
    · simp only [rings, if_neg hi, Cycle.mem_coe_iff, List.mem_singleton]
      constructor
      · intro h
        obtain ⟨rfl, rfl⟩ := Node.waiterList.inj h
        exact .inr ⟨rfl, hi⟩
      · rintro (⟨h, -⟩ | ⟨h, -⟩)
        · exact absurd h Node.noConfusion
        · exact h.symm

/-- The list of a pool has changed by an object, which then has a list of its own, or none. -/
theorem update_rings (k : Kind) (i : Index) (free : Kind → List Index)
    (hl : ∀ j ≠ i, j ∈ l ↔ j ∈ free k) :
    Function.update (Function.update (rings free) (.listHeader k)
      ↑(.listHeader k :: l.map (.waiterList k) : List Node)) (.waiterList k i)
        (if i ∈ l then Cycle.nil else ↑([.waiterList k i] : List Node)) =
      rings (Function.update free k l) := by
  funext x
  cases x with
  | listHeader k' =>
    rw [Function.update_of_ne Node.noConfusion]
    by_cases hk : k' = k
    · subst hk
      rw [Function.update_self, rings, Function.update_self]
    · rw [Function.update_of_ne fun h => hk (Node.listHeader.inj h), rings, rings,
        Function.update_of_ne hk]
  | waiterList k' j =>
    by_cases hj : Node.waiterList k' j = .waiterList k i
    · obtain ⟨rfl, rfl⟩ := Node.waiterList.inj hj
      rw [Function.update_self, rings, Function.update_self]
    · rw [Function.update_of_ne hj, Function.update_of_ne Node.noConfusion, rings, rings]
      by_cases hk : k' = k
      · subst hk
        have hji : j ≠ i := fun h => hj (by rw [h])
        rw [Function.update_self]
        simp only [hl j hji]
      · rw [Function.update_of_ne hk]

/-- The first object is taken off the list of its pool, and its list of waiters initialised. -/
theorem exists_erase_first {L : Links Node} (h : L.RingFamily (rings free))
    (hfree : free k = i :: l) : ∃ L',
    L.next (.listHeader k) = some (.waiterList k i) ∧ L.erase (.waiterList k i) = some L' ∧
      (L'.initRing (.waiterList k i)).RingFamily (rings (Function.update free k l)) := by
  have hlist : rings free (.listHeader k) =
      ↑(Node.listHeader k :: .waiterList k i :: l.map (.waiterList k)) := by
    rw [rings, hfree, List.map_cons]
  have hring := h.ring (.listHeader k)
  rw [hlist] at hring
  -- The first object is not in the list any more, and its own ring is the header alone.
  have hil : i ∉ l := by
    have hmap := (List.nodup_cons.1 (Cycle.nodup_coe_iff.1 hring.nodup)).2
    rw [← List.map_cons] at hmap
    exact (List.nodup_cons.1 (List.Nodup.of_map _ hmap)).1
  obtain ⟨L', hL', hr⟩ := h.erase_second hlist
  refine ⟨L', hring.linked_cons_cons.1, hL', ?_⟩
  have hnot : ∀ x, Node.waiterList k i ∉ Function.update (rings free) (.listHeader k)
      ↑(.listHeader k :: l.map (.waiterList k) : List Node) x := by
    intro x hx
    by_cases hxk : x = .listHeader k
    · subst hxk
      rw [Function.update_self] at hx
      exact hil (by simpa using hx)
    · rw [Function.update_of_ne hxk] at hx
      rcases mem_rings.1 hx with ⟨hx, -⟩ | ⟨-, hx⟩
      · exact hxk hx
      · exact hx (hfree ▸ List.mem_cons_self)
  have hown := hr.initRing (i := .waiterList k i) hnot
  rw [← update_rings k i free fun j hj => by rw [hfree, List.mem_cons, or_iff_right hj],
    if_neg hil]
  exact hown

/-- An object whose list of waiters is empty goes to the end of the list of its pool. -/
theorem exists_insert_last {L : Links Node} (h : L.RingFamily (rings free))
    (hi : i ∉ free k) : ∃ L',
    L.insertBefore (.listHeader k) (.waiterList k i) = some L' ∧
      L'.RingFamily (rings (Function.update free k (free k ++ [i]))) := by
  -- Its own list is none of the lists any more.
  have hown : L.RingFamily (Function.update (rings free) (.waiterList k i) Cycle.nil) :=
    h.update ⟨Cycle.nodup_nil, trivial⟩ (fun x hx => absurd hx (Cycle.notMem_nil x)) fun _ _ _ =>
      ⟨rfl, rfl⟩
  have hnot :
      ∀ x, Node.waiterList k i ∉ Function.update (rings free) (.waiterList k i) Cycle.nil x := by
    intro x hx
    by_cases hxk : x = .waiterList k i
    · subst hxk
      rw [Function.update_self] at hx
      exact Cycle.notMem_nil _ hx
    · rw [Function.update_of_ne hxk] at hx
      rcases mem_rings.1 hx with ⟨-, hx⟩ | ⟨hx, -⟩
      · exact hi hx
      · exact hxk hx
  obtain ⟨L', hL', hr⟩ := hown.insertBefore (i := .listHeader k)
    (Function.update_of_ne Node.noConfusion ..) hnot
  have hmap : (free k).map (Node.waiterList k) ++ [.waiterList k i] =
      (free k ++ [i]).map (Node.waiterList k) := by
    rw [List.map_append, List.map_singleton]
  have heq := update_rings (l := free k ++ [i]) k i free fun j hj => by
    rw [List.mem_append, List.mem_singleton, or_iff_left hj]
  rw [if_pos (List.mem_append_right _ List.mem_cons_self)] at heq
  rw [hmap, Function.update_comm Node.noConfusion, heq] at hr
  exact ⟨L', hL', hr⟩

/-! ## The guards -/

/-- A mutex that nobody holds. -/
structure Manager.Unlocked (m : Manager) (i : Index) : Prop where
  val : m.val (.mutex, i) = 1
  holder : m.holder i = INVALID
  depth : m.depth i = 0

/-- A mutex that the thread holds once. -/
structure Manager.Locked (m : Manager) (tid : ℕ) (i : Index) : Prop where
  val : m.val (.mutex, i) = 0
  holder : m.holder i = tid
  depth : m.depth i = 1

/-- All other mutexes, and all semaphores, are as they were. -/
structure Manager.Frame (m m' : Manager) (x : Kind × Index) : Prop where
  val : ∀ y ≠ x, m'.val y = m.val y
  holder : ∀ j, (.mutex, j) ≠ x → m'.holder j = m.holder j
  depth : ∀ j, (.mutex, j) ≠ x → m'.depth j = m.depth j

theorem Manager.Unlocked.frame (h : m.Unlocked i) {x : Kind × Index} (hf : m.Frame m' x)
    (hx : (.mutex, i) ≠ x) : m'.Unlocked i :=
  ⟨(hf.val _ hx).trans h.val, (hf.holder i hx).trans h.holder, (hf.depth i hx).trans h.depth⟩

theorem Manager.Locked.frame (h : m.Locked tid i) {x : Kind × Index} (hf : m.Frame m' x)
    (hx : (.mutex, i) ≠ x) : m'.Locked tid i :=
  ⟨(hf.val _ hx).trans h.val, (hf.holder i hx).trans h.holder, (hf.depth i hx).trans h.depth⟩

theorem frame_update (m : Manager) (i : Index) (val : ℤ) (holder : ℕ) (depth : ℤ)
    (links : Links Node) :
    m.Frame ⟨links, Function.update m.val (.mutex, i) val, Function.update m.holder i holder,
      Function.update m.depth i depth⟩ (.mutex, i) where
  val _ hy := Function.update_of_ne hy ..
  holder _ hj := Function.update_of_ne (fun h => hj (by rw [h])) ..
  depth _ hj := Function.update_of_ne (fun h => hj (by rw [h])) ..

/-- A mutex that nobody holds is locked at once. -/
theorem Manager.Unlocked.lock (h : m.Unlocked i) (htid : tid ≠ INVALID) :
    ∃ m', m.lock tid i = some m' ∧
    m'.Locked tid i ∧ m'.links = m.links ∧ m.Frame m' (.mutex, i) := by
  refine ⟨⟨m.links, Function.update m.val (.mutex, i) 0, Function.update m.holder i tid,
    Function.update m.depth i 1⟩, ?_, ⟨?_, ?_, ?_⟩, rfl, frame_update m i 0 tid 1 _⟩
  · rw [Manager.lock, if_pos (by rw [h.val]; decide), h.holder, if_pos htid, lockSem, h.val,
      show sint (1 - 1) = 0 by decide]
    simp only [lt_irrefl, if_false, Option.bind_eq_bind, Option.bind_some, h.holder, h.depth,
      and_self, if_true]
    rfl
  · exact Function.update_self ..
  · exact Function.update_self ..
  · exact Function.update_self ..

/-- A mutex that is held once is unlocked, if its list of waiters is there. -/
theorem Manager.Locked.unlock (h : m.Locked tid i) (hidle : m.Idle .mutex i) :
    ∃ m', m.unlock tid i = some m' ∧
    m'.Unlocked i ∧ m'.links = m.links ∧ m.Frame m' (.mutex, i) := by
  have hnext : m.links.next (.waiterList .mutex i) = some (.waiterList .mutex i) :=
    hidle.linked_singleton.1
  refine ⟨⟨m.links, Function.update m.val (.mutex, i) 1, Function.update m.holder i INVALID,
    Function.update m.depth i 0⟩, ?_, ⟨?_, ?_, ?_⟩, rfl, frame_update m i 1 INVALID 0 _⟩
  · rw [Manager.unlock, if_pos ⟨by rw [h.val]; decide, h.holder.symm, by rw [h.depth]; decide⟩,
      h.depth,
      show sint (1 - 1) = 0 by decide]
    simp only [Function.update_self, if_true]
    rw [unlockSem]
    simp only [hnext, h.val, Option.bind_eq_bind, Option.bind_some, if_true]
    rfl
  · exact Function.update_self ..
  · exact Function.update_self ..
  · exact Function.update_self ..

/-! ## The pools -/

/-- The objects of a pool are free or out, each once. -/
structure Accounts (k : Kind) (o f : List Index) : Prop where
  free : ∀ i, i ∈ f ↔ i ∈ objects k ∧ i ∉ o
  out : ∀ i ∈ o, i ∈ objects k
  nodup_free : f.Nodup
  nodup : o.Nodup

section Accounts

variable {o f : List Index}

theorem Accounts.take (h : Accounts k o (i :: l)) : i ∈ objects k ∧ i ∉ o ∧
    Accounts k (i :: o) l := by
  obtain ⟨hobj, hout⟩ := (h.free i).1 List.mem_cons_self
  obtain ⟨hil, hnd⟩ := List.nodup_cons.1 h.nodup_free
  refine ⟨hobj, hout, fun j => ?_, fun j hj => ?_, hnd, List.nodup_cons.2 ⟨hout, h.nodup⟩⟩
  · have hj := h.free j
    rw [List.mem_cons] at hj
    rw [List.mem_cons, not_or]
    constructor
    · intro hjl
      obtain ⟨hobj', hout'⟩ := hj.1 (.inr hjl)
      exact ⟨hobj', fun heq => hil (heq ▸ hjl), hout'⟩
    · exact fun hjo => (hj.2 ⟨hjo.1, hjo.2.2⟩).resolve_left hjo.2.1
  · exact (List.mem_cons.1 hj).elim (fun heq => heq ▸ hobj) (h.out j)

theorem Accounts.giveBack (h : Accounts k o f) (hi : i ∈ o) :
    Accounts k (o.erase i) (f ++ [i]) := by
  have hif : i ∉ f := fun hf => ((h.free i).1 hf).2 hi
  refine ⟨fun j => ?_, fun j hj => h.out j (List.mem_of_mem_erase hj), ?_, h.nodup.erase i⟩
  · rw [List.mem_append, h.free, List.mem_singleton, h.nodup.mem_erase_iff]
    have hobj := h.out i hi
    constructor
    · rintro (⟨hj, hout⟩ | rfl)
      · exact ⟨hj, fun hjo => hout hjo.2⟩
      · exact ⟨hobj, fun hjo => hjo.1 rfl⟩
    · rintro ⟨hj, hout⟩
      by_cases hji : j = i
      · exact .inr hji
      · exact .inl ⟨hj, fun hjo => hout ⟨hji, hjo⟩⟩
  · exact List.nodup_append'.2 ⟨h.nodup_free, List.nodup_singleton i, by simpa using hif⟩

theorem Accounts.update (h : ∀ k, Accounts k (out k) (free k)) (hk : Accounts k o f) (k' : Kind) :
    Accounts k' (Function.update out k o k') (Function.update free k f k') := by
  by_cases heq : k' = k
  · subst heq
    rwa [Function.update_self, Function.update_self]
  · rw [Function.update_of_ne heq, Function.update_of_ne heq]
    exact h k'

end Accounts

/-- The lists hold the objects that are free, and nobody holds the guards. -/
structure Pool (s : State) (free : Kind → List Index) : Prop where
  rings : s.manager.links.RingFamily (rings free)
  accounts : ∀ k, Accounts k (s.out k) (free k)
  guards : ∀ k, s.manager.Unlocked (guard k)

theorem idle_of_notMem {L : Links Node} (h : L.RingFamily (rings free)) (hi : i ∉ free k) :
    L.IsRing ↑([.waiterList k i] : List Node) := by
  have hring := h.ring (.waiterList k i)
  rwa [rings, if_neg hi] at hring

theorem idle_guard {L : Links Node} (h : L.RingFamily (rings free))
    (hout : ∀ k, Accounts k (out k) (free k))
    (k : Kind) : L.IsRing ↑([.waiterList .mutex (guard k)] : List Node) :=
  idle_of_notMem h fun hmem => guard_ne (((hout .mutex).free _).1 hmem).1 k rfl

/-- A function initialises an object: its list of waiters is empty, and nothing else changes. -/
structure Initialises (k : Kind) (init : Manager → Index → Manager) : Prop where
  links : ∀ (m : Manager) i, (init m i).links = m.links.initRing (.waiterList k i)
  frame : ∀ (m : Manager) i, m.Frame (init m i) (k, i)

theorem initialises_initSem (val : ℤ) :
    Initialises .semaphore fun m i => m.initSem .semaphore i val where
  links _ _ := rfl
  frame _ _ := ⟨fun _ hy => Function.update_of_ne hy .., fun _ _ => rfl, fun _ _ => rfl⟩

theorem initialises_initMutex : Initialises .mutex Manager.initMutex where
  links _ _ := rfl
  frame m i := frame_update m i 1 INVALID 0 _

/-- A call under the guard of a pool: whatever is changed between the lock and the unlock, the
    guards apart, the guards are as they were. -/
theorem Pool.guarded (h : Pool s free) (htid : tid ≠ INVALID) (k : Kind) : ∃ m₁,
    s.manager.lock tid (guard k) = some m₁ ∧ m₁.links = s.manager.links ∧
      ∀ m₂ x, (∀ k', (.mutex, guard k') ≠ x) → m₁.Frame m₂ x → m₂.Idle .mutex (guard k) →
        ∃ m₃, m₂.unlock tid (guard k) = some m₃ ∧ m₃.links = m₂.links ∧
          (∀ k', m₃.Unlocked (guard k')) ∧
          m₂.Frame m₃ (.mutex, guard k) := by
  obtain ⟨m₁, hlock, hlocked, hlinks, hframe⟩ := (h.guards k).lock htid
  refine ⟨m₁, hlock, hlinks, fun m₂ x hx hf hidle => ?_⟩
  obtain ⟨m₃, hunlock, hunlocked, hlinks', hframe'⟩ := (hlocked.frame hf (hx k)).unlock hidle
  refine ⟨m₃, hunlock, hlinks', fun k' => ?_, hframe'⟩
  by_cases hk : guard k' = guard k
  · rwa [hk]
  · have hne : ((.mutex, guard k') : Kind × Index) ≠ (.mutex, guard k) :=
      fun heq => hk (Prod.mk.inj heq).2
    exact (((h.guards k').frame hframe hne).frame hf (hx k')).frame hframe' hne

/-- If no object is free, null is returned. -/
theorem Pool.allocateWith_nil (h : Pool s free) (htid : tid ≠ INVALID) (hfree : free k = [])
    (init : Manager → Index → Manager) :
    ∃ m', s.manager.allocateWith tid k init = some (none, m') ∧ Pool ⟨m', s.out⟩ free := by
  obtain ⟨m₁, hlock, hlinks, hcall⟩ := h.guarded htid k
  have hself : m₁.links.next (.listHeader k) = some (.listHeader k) := by
    have hring := h.rings.ring (.listHeader k)
    rw [SemManager.rings, hfree] at hring
    rw [hlinks]
    exact hring.linked_singleton.1
  have hidle : m₁.Idle .mutex (guard k) := by
    rw [Manager.Idle, hlinks]
    exact idle_guard h.rings h.accounts k
  obtain ⟨m₃, hunlock, hlinks', hguards, -⟩ := hcall m₁ (.semaphore, guard k) (fun _ => by simp)
    ⟨fun _ _ => rfl, fun _ _ => rfl, fun _ _ => rfl⟩ hidle
  refine ⟨m₃, ?_, by rw [hlinks', hlinks]; exact h.rings, h.accounts, hguards⟩
  rw [Manager.allocateWith, hlock]
  simp only [Option.bind_eq_bind, Option.bind_some, Manager.take, hself, hunlock]

/-- Otherwise the first free object, initialised. -/
theorem Pool.allocateWith_cons (h : Pool s free) (htid : tid ≠ INVALID) (hinit : Initialises k init)
    (hfree : free k = i :: l) : ∃ m₁ m', s.manager.allocateWith tid k init = some (some i, m') ∧
      Pool ⟨m', Function.update s.out k (i :: s.out k)⟩ (Function.update free k l) ∧
        (init m₁ i).Frame m' (.mutex, guard k) := by
  obtain ⟨m₁, hlock, hlinks, hcall⟩ := h.guarded htid k
  obtain ⟨L, hnext, hL, hr⟩ := exists_erase_first h.rings hfree
  obtain ⟨hobj, -, hacc⟩ := (hfree ▸ h.accounts k).take
  have haccounts := Accounts.update h.accounts hacc
  let m₂ := { m₁ with links := L }
  have hframe : m₁.Frame (init m₂ i) (k, i) := by
    obtain ⟨hval, hholder, hdepth⟩ := hinit.frame m₂ i
    exact ⟨hval, hholder, hdepth⟩
  have hidle : (init m₂ i).Idle .mutex (guard k) := by
    rw [Manager.Idle, hinit.links]
    exact idle_guard hr haccounts k
  obtain ⟨m₃, hunlock, hlinks', hguards, hframe'⟩ :=
    hcall (init m₂ i) (k, i) (fun k' => (guard_ne hobj k').symm) hframe hidle
  refine ⟨m₂, m₃, ?_, ⟨?_, haccounts, hguards⟩, hframe'⟩
  · rw [Manager.allocateWith, hlock]
    simp only [Option.bind_eq_bind, Option.bind_some, Manager.take, hlinks, hnext, hL]
    change ((init m₂ i).unlock tid (guard k)).bind _ = _
    rw [hunlock, Option.bind_some]
  · dsimp only
    rw [hlinks', hinit.links]
    exact hr

/-- An object that is out is given back to the end of the list. -/
theorem Pool.deallocate (h : Pool s free) (htid : tid ≠ INVALID) (hi : i ∈ s.out k) : ∃ m',
    s.manager.deallocate tid k i = some m' ∧
      Pool ⟨m', Function.update s.out k ((s.out k).erase i)⟩
        (Function.update free k (free k ++ [i])) := by
  obtain ⟨m₁, hlock, hlinks, hcall⟩ := h.guarded htid k
  have hif : i ∉ free k := fun hf => (((h.accounts k).free i).1 hf).2 hi
  obtain ⟨L, hL, hr⟩ := exists_insert_last h.rings hif
  have haccounts := Accounts.update h.accounts ((h.accounts k).giveBack hi)
  obtain ⟨m₃, hunlock, hlinks', hguards, -⟩ :=
    hcall { m₁ with links := L } (.semaphore, guard k) (fun _ => by simp)
    ⟨fun _ _ => rfl, fun _ _ => rfl, fun _ _ => rfl⟩ (idle_guard hr haccounts k)
  refine ⟨m₃, ?_, by dsimp only; rw [hlinks']; exact hr, haccounts, hguards⟩
  rw [Manager.deallocate, if_pos (idle_of_notMem h.rings hif).linked_singleton.1, hlock]
  simp only [Option.bind_eq_bind, Option.bind_some, hlinks, hL, hunlock]

/-! ## With guards that are initialised -/

/-- A call of `allocate` does what it should. -/
theorem Pool.allocates (h : Pool s free) (htid : tid ≠ INVALID) (hinit : Initialises k init)
    {fresh : Manager → Index → Prop}
    (hfresh : ∀ m i m', i ∈ objects k → (init m i).Frame m' (.mutex, guard k) → fresh m' i) :
    s.Allocates k fresh (s.manager.allocateWith tid k init) := by
  cases hfree : free k with
  | nil =>
    obtain ⟨m', hcall, -⟩ := h.allocateWith_nil htid hfree init
    refine ⟨none, m', hcall, fun _ i hi => ?_, fun i hi => absurd hi.symm (Option.some_ne_none i)⟩
    by_contra hout
    have hmem := ((h.accounts k).free i).2 ⟨hi, hout⟩
    rw [hfree] at hmem
    exact List.not_mem_nil hmem
  | cons i l =>
    obtain ⟨m₁, m', hcall, hpool, hframe⟩ := h.allocateWith_cons htid hinit hfree
    obtain ⟨hobj, hout, hacc⟩ := (hfree ▸ h.accounts k).take
    refine ⟨some i, m', hcall, fun hi => absurd hi (Option.some_ne_none i), ?_⟩
    rintro j ⟨⟩
    refine ⟨hout, idle_of_notMem hpool.rings ?_, hfresh m₁ i m' hobj hframe⟩
    rw [Function.update_self]
    exact fun hil => ((hacc.free i).1 hil).2 List.mem_cons_self

theorem Pool.correct (h : Pool s free) (htid : tid ≠ INVALID) (hadm : s.Admits op) :
    s.Correct tid op := by
  cases op with
  | allocateSem initVal =>
    refine h.allocates htid (initialises_initSem initVal) fun m i m' hi hframe => ?_
    rw [hframe.val _ (guard_ne hi .semaphore)]
    exact Function.update_self ..
  | allocateMutex =>
    refine h.allocates htid initialises_initMutex fun m i m' hi hframe => ?_
    have hne := guard_ne hi .mutex
    rw [hframe.val _ hne, hframe.holder _ hne, hframe.depth _ hne]
    exact ⟨Function.update_self .., Function.update_self .., Function.update_self ..⟩
  | deallocate k i =>
    obtain ⟨m', hcall, hpool⟩ := h.deallocate htid hadm
    refine ⟨m', hcall,
      ((hpool.rings.ring (.listHeader k)).reaches_iff (by simp [SemManager.rings])).2 ?_⟩
    exact mem_rings.2 (.inl ⟨rfl, by simp⟩)
  | use k i val holder depth => trivial

/-- Using an object that is out leaves the guards alone. -/
theorem Pool.use (h : Pool s free) {i : Index} (hi : i ∈ s.out k) (val : ℤ) (holder : ℕ) (depth : ℤ)
    (hstep : s.step tid (.use k i val holder depth) = some s') : Pool s' free := by
  have hobj := (h.accounts k).out i hi
  cases k with
  | semaphore =>
    obtain rfl := Option.some.inj hstep
    refine ⟨h.rings, h.accounts, fun k' => (h.guards k').frame (x := (.semaphore, i)) ?_ (by simp)⟩
    exact ⟨fun _ hy => Function.update_of_ne hy .., fun _ _ => rfl, fun _ _ => rfl⟩
  | mutex =>
    obtain rfl := Option.some.inj hstep
    exact ⟨h.rings, h.accounts, fun k' =>
      (h.guards k').frame (frame_update s.manager i val holder depth _) (guard_ne hobj k').symm⟩

theorem Pool.step (h : Pool s free) (htid : tid ≠ INVALID) (hadm : s.Admits op)
    (hstep : s.step tid op = some s') :
    ∃ free', Pool s' free' := by
  have hallocate : ∀ {k init}, Initialises k init →
      (s.manager.allocateWith tid k init).map (s.allocated k) = some s' →
        ∃ free', Pool s' free' := by
    intro k init hinit hs'
    cases hfree : free k with
    | nil =>
      obtain ⟨m', hcall, hpool⟩ := h.allocateWith_nil htid hfree init
      rw [hcall, Option.map_some] at hs'
      obtain rfl := Option.some.inj hs'
      refine ⟨free, hpool.rings, ?_, hpool.guards⟩
      simpa [State.allocated] using hpool.accounts
    | cons i l =>
      obtain ⟨m₁, m', hcall, hpool, -⟩ := h.allocateWith_cons htid hinit hfree
      rw [hcall, Option.map_some] at hs'
      obtain rfl := Option.some.inj hs'
      exact ⟨_, hpool⟩
  cases op with
  | allocateSem initVal => exact hallocate (initialises_initSem initVal) hstep
  | allocateMutex => exact hallocate initialises_initMutex hstep
  | deallocate k i =>
    obtain ⟨m', hcall, hpool⟩ := h.deallocate htid hadm
    rw [State.step, hcall, Option.map_some] at hstep
    obtain rfl := Option.some.inj hstep
    exact ⟨_, hpool⟩
  | use k i val holder depth => exact ⟨free, h.use hadm val holder depth hstep⟩

/-! ## The start -/

/-- The lists after `init`: no object has a list of waiters. -/
def initRings : Node → Cycle Node
  | .listHeader k => ↑(.listHeader k :: (objects k).map (.waiterList k) : List Node)
  | .waiterList _ _ => Cycle.nil

/-- The first lists, which are empty. -/
def headerRings : Node → Cycle Node
  | .listHeader k => ↑([.listHeader k] : List Node)
  | .waiterList _ _ => Cycle.nil

theorem waiterList_notMem (k : Kind) (i : Index) (x : Node) : .waiterList k i ∉ headerRings x := by
  cases x with
  | listHeader k' => simp [headerRings]
  | waiterList k' j => exact Cycle.notMem_nil _

theorem headers_rings :
    ((zero.links.initRing (.listHeader .semaphore)).initRing (.listHeader .mutex)).Rings
    headerRings := by
  have h₀ : zero.links.Rings fun _ : Node => Cycle.nil := .of_null fun _ => ⟨rfl, rfl⟩
  have h₁ := h₀.initRing (i := .listHeader .semaphore) (x := .listHeader .semaphore) rfl
    fun _ => Cycle.notMem_nil _
  have h₂ := h₁.initRing (i := .listHeader .mutex) (x := .listHeader .mutex)
    (Function.update_of_ne (by decide) ..) fun x hx => by
      by_cases hxs : x = .listHeader .semaphore
      · subst hxs
        simp at hx
      · rw [Function.update_of_ne hxs] at hx
        exact Cycle.notMem_nil _ hx
  have heq : Function.update (Function.update (fun _ => Cycle.nil) (Node.listHeader .semaphore)
      ↑([.listHeader .semaphore] : List Node))
        (.listHeader .mutex) ↑([.listHeader .mutex] : List Node) =
        headerRings := by
    funext x
    rcases x with (_ | _) | ⟨k, i⟩
    · rfl
    · rfl
    · rw [Function.update_of_ne Node.noConfusion, Function.update_of_ne Node.noConfusion]
      rfl
  rwa [heq] at h₂

theorem init_rings : ∃ L, zero.init = some { zero with links := L } ∧ L.Rings initRings := by
  have hnd : ∀ k, ((objects k).map (Node.waiterList k)).Nodup := fun k =>
    (nodup_objects k).map fun i j h => (Node.waiterList.inj h).2
  obtain ⟨L, hL, h₁⟩ := headers_rings.foldlM_insertBefore (i := .listHeader .semaphore) rfl _
    (fun x hx j => by
      obtain ⟨i, -, rfl⟩ := List.mem_map.1 hx
      exact waiterList_notMem _ i j) (hnd .semaphore)
  obtain ⟨L', hL', h₂⟩ := h₁.foldlM_insertBefore (i := .listHeader .mutex)
    (Function.update_of_ne (by decide) ..) _ (fun x hx j hj => by
      obtain ⟨i, -, rfl⟩ := List.mem_map.1 hx
      by_cases hjs : j = .listHeader .semaphore
      · subst hjs
        simp at hj
      · rw [Function.update_of_ne hjs] at hj
        exact waiterList_notMem _ i j hj) (hnd .mutex)
  refine ⟨L', by rw [Manager.init, hL, Option.bind_eq_bind, Option.bind_some, hL']; rfl, ?_⟩
  rw [List.nil_append, List.nil_append] at h₂
  convert h₂ using 1
  funext x
  rcases x with (_ | _) | ⟨k, i⟩
  · rw [Function.update_of_ne (by decide), Function.update_self]
    rfl
  · rw [Function.update_self]
    rfl
  · rw [Function.update_of_ne Node.noConfusion, Function.update_of_ne Node.noConfusion]
    rfl

/-- A guard is on no list. -/
theorem guard_notMem_initRings (k : Kind) (x : Node) : .waiterList .mutex (guard k) ∉ initRings x :=
  fun hx => by
  cases x with
  | listHeader k' =>
    obtain ⟨i, hi, heq⟩ :=
      List.mem_map.1 (List.mem_of_ne_of_mem Node.noConfusion (Cycle.mem_coe_iff.1 hx))
    obtain ⟨rfl, rfl⟩ := Node.waiterList.inj heq
    exact guard_ne hi k rfl
  | waiterList k' i => exact Cycle.notMem_nil _ hx

/-- All objects are free if the guards have a list of waiters each. -/
theorem guards_rings {L : Links Node} (h : L.Rings initRings) :
    ((L.initRing (.waiterList .mutex (guard .semaphore))).initRing
      (.waiterList .mutex (guard .mutex))).RingFamily (rings objects) := by
  have h₁ :=
    h.family.initRing (i := .waiterList .mutex (guard .semaphore))
    (guard_notMem_initRings .semaphore)
  have h₂ :=
    h₁.initRing (i := .waiterList .mutex (guard .mutex)) (x := .waiterList .mutex (guard .mutex))
    fun x hx => by
      by_cases hxg : x = .waiterList .mutex (guard .semaphore)
      · subst hxg
        rw [Function.update_self] at hx
        exact absurd hx (by decide)
      · rw [Function.update_of_ne hxg] at hx
        exact guard_notMem_initRings .mutex x hx
  -- The rings of the guards are those of mutexes that nobody waits for.
  convert h₂ using 1
  funext x
  by_cases hx : x = .waiterList .mutex (guard .mutex)
  · subst hx
    rw [Function.update_self, rings, if_neg fun hmem => guard_ne hmem .mutex rfl]
  · rw [Function.update_of_ne hx]
    by_cases hx' : x = .waiterList .mutex (guard .semaphore)
    · subst hx'
      rw [Function.update_self, rings, if_neg fun hmem => guard_ne hmem .semaphore rfl]
    · rw [Function.update_of_ne hx']
      rcases x with k | ⟨_ | _, i⟩
      · rfl
      · rw [rings, if_pos mem_objects_semaphore]
        rfl
      · -- The mutexes from the third on.
        have h0 : (i : ℕ) ≠ 0 := fun h => hx' (congrArg _ (Fin.ext h))
        have h1 : (i : ℕ) ≠ 1 := fun h => hx (congrArg _ (Fin.ext h))
        rw [rings, if_pos (mem_objects_mutex.2 (by omega))]
        rfl

/-- With the guards initialised, all objects are free. -/
theorem pool_initGuards {L : Links Node} (h : L.Rings initRings) :
    Pool ⟨Manager.initGuards { zero with links := L }, fun _ => []⟩ objects where
  rings := guards_rings h
  accounts k :=
    ⟨fun i => by simp, fun i hi => absurd hi List.not_mem_nil, nodup_objects k, List.nodup_nil⟩
  guards k := by
    cases k with
    | semaphore => exact ⟨rfl, rfl, rfl⟩
    | mutex => exact ⟨rfl, rfl, rfl⟩

/-- If the guards were initialised, all calls of all runs would be right. -/
theorem correct_of_initGuards {ops : List Op} (hinit : zero.init = some m) (htid : tid ≠ INVALID)
    (hops : Admissible (State.step tid) State.Admits ⟨m.initGuards, fun _ => []⟩ ops) :
    Admissible (State.step tid) (State.Correct tid) ⟨m.initGuards, fun _ => []⟩ ops := by
  obtain ⟨L, hm, h⟩ := init_rings
  obtain rfl := Option.some.inj (hm.symm.trans hinit)
  refine (Admissible.iff (Q := fun _ _ => True) (I := fun s => ∃ free, Pool s free)
    (fun ⟨_, hs⟩ hadm => iff_of_true (hs.correct htid hadm) trivial)
    (fun ⟨_, hs⟩ hadm _ hstep => hs.step htid hadm hstep) ⟨_, pool_initGuards h⟩ hops).2 ?_
  exact .of_forall (fun _ _ => trivial) ops

/-! ## Without -/

/-- The list of waiters of a guard is null. -/
theorem unlock_eq_none (hnext : m.links.next (.waiterList .mutex i) = none)
    (hdepth : m.depth i = 1) :
    m.unlock tid i = none := by
  rw [Manager.unlock]
  split_ifs with h
  · have hzero : sint (m.depth i - 1) = 0 := by rw [hdepth]; decide
    simp only [Function.update_self, hzero, if_true]
    rw [Manager.unlockSem]
    dsimp only
    rw [hnext]
    rfl
  · rfl

/-- A thread that is not 0 waits for the guard, or follows its null link. -/
theorem lock_eq_none (hval : m.val (.mutex, i) = 0) (hholder : m.holder i = 0) (htid : tid ≠ 0) :
    m.lock tid i = none := by
  rw [Manager.lock, if_pos (by rw [hval]; decide), if_pos (by rwa [hholder]), Manager.lockSem, hval]
  rfl

/-- The thread 0 holds the guard already. -/
theorem lock_tid_zero (hval : m.val (.mutex, i) = 0) (hholder : m.holder i = 0)
    (hdepth : m.depth i = 0) :
    ∃ m₁, m.lock 0 i = some m₁ ∧ m₁.links = m.links ∧ m₁.depth i = 1 := by
  refine ⟨{ m with depth := Function.update m.depth i (sint (m.depth i + 1)) }, ?_, rfl, ?_⟩
  · rw [Manager.lock, if_pos (by rw [hval]; decide), if_neg (not_not_intro hholder.symm)]
  · dsimp only
    rw [Function.update_self, hdepth]
    decide

/-- What is taken under a guard is not given out: the guard is not unlocked. -/
theorem take_unlock {L : Links Node} {r : Option Index} (tid : ℕ) (h : L.Rings initRings)
    (hinit : Initialises k init)
    (hlinks : m.links = L) (hdepth : m.depth (guard k) = 1) (htake : m.take k init = some (r, m')) :
    m'.unlock tid (guard k) = none := by
  cases hobj : objects k with
  | nil =>
    have htwo : (⟨2, by decide⟩ : Index) ∈ objects k := by
      cases k with
      | semaphore => exact mem_objects_semaphore
      | mutex => exact mem_objects_mutex.2 le_rfl
    rw [hobj] at htwo
    exact absurd htwo List.not_mem_nil
  | cons i l =>
    have hlist : initRings (.listHeader k) =
        ↑(Node.listHeader k :: ([] ++ .waiterList k i :: l.map (.waiterList k))) := by
      rw [initRings, hobj, List.map_cons, List.nil_append]
    have hnext : L.next (.listHeader k) = some (.waiterList k i) := by
      have hring := h.ring (.listHeader k)
      rw [hlist] at hring
      exact hring.linked_cons_cons.1
    obtain ⟨L', hL', hr⟩ := h.erase_middle hlist
    have hne := guard_ne (k := k) (i := i) (hobj ▸ List.mem_cons_self) k
    -- The guard is in no ring: the header of its waiters is null, and `unlock` follows it.
    have hnull : L'.next (.waiterList .mutex (guard k)) = none := (hr.null fun x hx => by
      by_cases hxk : x = .listHeader k
      · subst hxk
        rw [Function.update_self] at hx
        refine guard_notMem_initRings k (.listHeader k) ?_
        rw [hlist, Cycle.mem_coe_iff]
        rw [Cycle.mem_coe_iff] at hx
        have hsub :
            (l.map (Node.waiterList k)).Sublist (.waiterList k i :: l.map (.waiterList k)) :=
          List.sublist_cons_self ..
        exact (hsub.cons_cons _).subset hx
      · rw [Function.update_of_ne hxk] at hx
        exact guard_notMem_initRings k x hx).1
    rw [Manager.take, hlinks, hnext] at htake
    simp only [Option.bind_eq_bind, Option.bind_some, hL'] at htake
    obtain rfl := (Prod.mk.inj (Option.some.inj htake)).2
    refine unlock_eq_none ?_ ?_
    · rw [hinit.links, (Links.initRing_frame L' fun heq => hne ?_).1, hnull]
      obtain ⟨hk, hg⟩ := Node.waiterList.inj heq
      exact Prod.ext hk.symm hg.symm
    · rw [(hinit.frame _ i).depth _ hne.symm]
      exact hdepth

/-- No object is allocated. -/
theorem allocateWith_eq_none {L : Links Node} (h : L.Rings initRings)
    (hinit : Initialises k init) (tid : ℕ) :
    Manager.allocateWith { zero with links := L } tid k init = none := by
  rw [Manager.allocateWith]
  by_cases htid : tid = 0
  · subst htid
    obtain ⟨m₁, hlock, hlinks, hdepth⟩ :=
      lock_tid_zero (m := { zero with links := L }) (i := guard k) rfl rfl rfl
    rw [hlock]
    cases htake : m₁.take k init with
    | none => rw [Option.bind_eq_bind, Option.bind_some, htake]; rfl
    | some r =>
      obtain ⟨r, m'⟩ := r
      simp only [Option.bind_eq_bind, Option.bind_some, htake,
        take_unlock 0 h hinit hlinks hdepth htake, Option.bind_none]
  · rw [lock_eq_none rfl rfl htid]
    rfl

/-- The calls of a run are right just if there are none. -/
theorem calls_iff {ops : List Op} (hinit : zero.init = some m) (tid : ℕ)
    (hops : Admissible (State.step tid) State.Admits ⟨m, fun _ => []⟩ ops) :
    Admissible (State.step tid) (State.Correct tid) ⟨m, fun _ => []⟩ ops ↔ ops = [] := by
  obtain ⟨L, hm, h⟩ := init_rings
  obtain rfl := Option.some.inj (hm.symm.trans hinit)
  cases ops with
  | nil => exact iff_of_true trivial rfl
  | cons op ops =>
    refine iff_of_false (fun hcorrect => ?_) (List.cons_ne_nil op ops)
    have hfirst := hcorrect.1
    cases op with
    | allocateSem initVal =>
      obtain ⟨r, m', hcall, -⟩ := hfirst
      exact Option.some_ne_none _
        (hcall.symm.trans (allocateWith_eq_none h (initialises_initSem initVal) tid))
    | allocateMutex =>
      obtain ⟨r, m', hcall, -⟩ := hfirst
      exact Option.some_ne_none _
        (hcall.symm.trans (allocateWith_eq_none h initialises_initMutex tid))
    | deallocate k i => exact absurd hops.1 List.not_mem_nil
    | use k i val holder depth => exact absurd hops.1 List.not_mem_nil

/-- The first call of the thread 5. -/
theorem calls_first : ∃ m, zero.init = some m ∧
    ¬Admissible (State.step 5) (State.Correct 5) ⟨m, fun _ => []⟩ [.allocateMutex] := by
  obtain ⟨L, hm, -⟩ := init_rings
  have hops :
      Admissible (State.step 5) State.Admits ⟨{ zero with links := L }, fun _ => []⟩
      [.allocateMutex] :=
    ⟨trivial, fun _ _ => trivial⟩
  exact ⟨_, hm, fun hcorrect => List.cons_ne_nil _ _ ((calls_iff hm 5 hops).1 hcorrect)⟩

/-- Neither the thread 0 nor another gets a semaphore. -/
theorem not_correct_allocate : ∃ m, zero.init = some m ∧ m.allocateSem 0 1 = none ∧
    m.allocateSem 5 1 = none ∧
    ∀ tid, ¬Admissible (State.step tid) (State.Correct tid) ⟨m, fun _ => []⟩ [.allocateSem 1] := by
  obtain ⟨L, hm, h⟩ := init_rings
  have hnone := allocateWith_eq_none h (initialises_initSem 1)
  refine ⟨_, hm, hnone 0, hnone 5, fun tid hcorrect => ?_⟩
  obtain ⟨r, m', hcall, -⟩ := hcorrect.1
  exact Option.some_ne_none _ (hcall.symm.trans (hnone tid))

end SemManager

end DemoOs
