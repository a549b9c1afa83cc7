import DemoOs.Arch.Translation
import DemoOs.Lib.Ring

/-!
# The virtual memory manager

The functions of `vmm.cpp`. Every physical page has a descriptor, which is on the free list or on
the page list of a process. `mapping4KB` takes a page off the free list and enters a translation
into the page hash table; `unmapping4KB` and `releaseProcAllPages` give pages back.

The descriptors are an array, and are named by their index there. A function returns none when it
follows a null pointer, walks along a ring without end, or waits for ever.

The free list is protected by the mutex `_freePageLock`. Only `Vmm::init` initialises it, which
nothing calls: the kernel is started by `firstInit` and `secondInit`, which do not. In
zero-initialised storage a mutex has no permit, and a null list of waiters. A thread whose id is not
zero, the holder there, waits for a permit (`PageLock.lock_zero`); the thread 0 gets in, but follows
the null list in `unlock` (`PageLock.unlock_zero`). So no section returns (`locked_eq_none`).
-/

namespace DemoOs

/-- The headers: of the free list, and of the page list of each process. -/
inductive PageHdr
  | free
  | proc (pid : ℕ)
  deriving DecidableEq

/-- The list nodes: a header, or the `_doubleList` of a descriptor. -/
inductive PageNode
  | hdr (h : PageHdr)
  | page (i : ℕ)
  deriving DecidableEq

/-- A mutex, as `mutex.cpp` and `semaphore.cpp` use it for threads that call one after the other. -/
structure PageLock where
  /-- The value of `_sem`. -/
  val : ℤ
  /-- The list of waiters of `_sem` is an empty ring, and not null. -/
  formed : Bool
  holder : ℕ
  depth : ℤ
  deriving DecidableEq

namespace PageLock

/-- `Mutex::INVALID`. -/
def invalid : ℕ := 0xFFFF

/-- Zero-initialised storage. -/
def zero : PageLock := ⟨0, false, 0, 0⟩

/-- `Mutex::init`. -/
def init : PageLock := ⟨1, true, invalid, 0⟩

/-- `Mutex::lock`, by the thread `tid`, with the assertions, which are active in `mutex.cpp`. -/
def lock (m : PageLock) (tid : ℕ) : Option PageLock :=
  if m.val < 2 then
    if tid ≠ m.holder then
      let val := sint (m.val - 1)
      -- A thread that waits is not woken: the holder, if there is one, has returned.
      if val < 0 then none
      else if m.holder = invalid ∧ m.depth = 0 then
        some { m with val, holder := tid, depth := sint (m.depth + 1) }
      else none
    else some { m with depth := sint (m.depth + 1) }
  else none

/-- `Mutex::unlock`. The last one looks through the list of waiters. -/
def unlock (m : PageLock) (tid : ℕ) : Option PageLock :=
  if m.val < 1 ∧ tid = m.holder ∧ 0 < m.depth then
    let depth := sint (m.depth - 1)
    if depth = 0 then
      if m.formed then some { m with val := sint (m.val + 1), holder := invalid, depth } else none
    else some { m with depth }
  else none

variable {tid : ℕ}

theorem lock_init (htid : tid ≠ invalid) : init.lock tid = some ⟨0, true, tid, 1⟩ := by
  have hholder : tid ≠ init.holder := htid
  rw [lock, if_pos (by decide), if_pos hholder]
  rfl

theorem unlock_init : unlock ⟨0, true, tid, 1⟩ tid = some init :=
  if_pos ⟨Int.zero_lt_one, rfl, Int.zero_lt_one⟩

/-- Without a permit, only the thread 0 gets in. -/
theorem lock_zero : zero.lock tid = if tid = 0 then some ⟨0, false, 0, 1⟩ else none := by
  rw [lock, if_pos (by decide)]
  by_cases htid : tid = zero.holder
  · rw [if_neg (not_not_intro htid), if_pos (show tid = 0 from htid)]
    rfl
  · rw [if_pos htid, if_neg (show tid ≠ 0 from htid)]
    rfl

/-- It does not get out. -/
theorem unlock_zero : unlock ⟨0, false, 0, 1⟩ tid = none := by
  rw [unlock]
  split <;> rfl

end PageLock

structure Vmm where
  links : Links PageNode
  /-- The field `_virAddr` of each descriptor. -/
  virAddr : ℕ → BitVec 32
  /-- The field `_phyAddr` of each descriptor. -/
  phyAddr : ℕ → BitVec 32
  freePageCounter : ℕ
  freePageLock : PageLock
  /-- The segment registers and the page hash table. -/
  mmu : Mmu.State

namespace Vmm

/-! ## Start-up -/

structure MemBlock where
  baseAddr : ℕ
  size : ℕ

/-- `OMLayout::VmmSpaces`: the memory after the 4 MB of the kernel and the 6 MB for DMA. -/
def vmmSpaces : List MemBlock :=
  [⟨0 + 4 * 2 ^ 20 + 6 * 2 ^ 20, 256 * 2 ^ 20 - (4 * 2 ^ 20 + 6 * 2 ^ 20)⟩]

namespace MemBlock

/-- `start`. -/
def start (b : MemBlock) : ℕ := alignUp b.baseAddr pageSize

/-- `end`. -/
def stop (b : MemBlock) : ℕ := alignDown (word (b.baseAddr + b.size)) pageSize

end MemBlock

/-- `Vmm::firstInit`. -/
def firstInit (v : Vmm) : Vmm :=
  { v with
    links := v.links.initRing (.hdr .free)
    freePageCounter :=
      vmmSpaces.foldl (fun n b => word (n + wordSub b.stop b.start)) 0 >>> 12 }

/-- The loop of `secondInit` over the pages of a block, from the descriptor `i` on. -/
def initPages (v : Vmm) (stop : ℕ) : ℕ → ℕ → ℕ → Option (Vmm × ℕ)
  | 0, _, _ => none
  | fuel + 1, start, i =>
    if start < stop then do
      let links ← v.links.insertBefore (.hdr .free) (.page i)
      let v := { v with
        links := links
        phyAddr := Function.update v.phyAddr i (BitVec.ofNat 32 start)
        virAddr := Function.update v.virAddr i 0 }
      initPages v stop fuel (word (start + pageSize)) (i + 1)
    else some (v, i)

/-- The loop of `secondInit` over the blocks: it ends early when there is no descriptor left. -/
def initBlocks (v : Vmm) (i : ℕ) : List MemBlock → Option Vmm
  | [] => some v
  | b :: bs =>
    if i < v.freePageCounter then do
      let (v, i) ← v.initPages b.stop (2 ^ 32) b.start i
      v.initBlocks i bs
    else some v

/-- `Vmm::secondInit`, the heap having given the memory of the descriptors. -/
def secondInit (v : Vmm) : Option Vmm := v.initBlocks 0 vmmSpaces

/-- The memory at start-up, with the lists of the processes initialised (`GeneralProc::init`), and
    with the lock as zero-initialised storage or, as `Vmm::init` would have it, initialised. -/
def zero (sr : Mmu.SRs) (initialised : Bool) : Vmm where
  links :=
    { next := fun x => match x with
        | .hdr h => some (.hdr h)
        | .page _ => none
      prev := fun x => match x with
        | .hdr h => some (.hdr h)
        | .page _ => none }
  virAddr := fun _ => 0
  phyAddr := fun _ => 0
  freePageCounter := 0
  freePageLock := if initialised then .init else .zero
  mmu := ⟨sr, .init 0 0⟩

/-- The manager as `Powerpc::init` starts it, with the page hash table at `tabStart`. -/
def boot (sr : Mmu.SRs) (tabStart : BitVec 32) (initialised : Bool) : Option Vmm :=
  let v := (zero sr initialised).firstInit
  let tabSize := Powerpc.optimalSize (word (v.freePageCounter * pageSize))
  { v with mmu := ⟨sr, .init tabStart tabSize⟩ }.secondInit

/-! ## Pages of processes -/

/-- `phtab.insertPTE`. -/
def insertPTE (v : Vmm) (virAddr entry : BitVec 32) : Vmm :=
  { v with mmu := { v.mmu with tab := v.mmu.tab.insertPTE v.mmu.sr virAddr entry } }

/-- `phtab.invalidPTE`. -/
def invalidPTE (v : Vmm) (virAddr : BitVec 32) : Vmm :=
  { v with mmu := { v.mmu with tab := v.mmu.tab.invalidPTE v.mmu.sr virAddr } }

/-- `alignDown(virAddr, MM::PageSize)`. -/
def pageBase (virAddr : BitVec 32) : BitVec 32 := virAddr &&& ~~~BitVec.ofNat 32 (pageSize - 1)

/-- A section under `_freePageLock`. -/
def locked {α : Type} (v : Vmm) (tid : ℕ) (body : Vmm → Option (Vmm × α)) : Option (Vmm × α) := do
  let freePageLock ← v.freePageLock.lock tid
  let (v, a) ← body { v with freePageLock }
  let freePageLock ← v.freePageLock.unlock tid
  some ({ v with freePageLock }, a)

/-- The section of `getFreePage`: the first descriptor, if there is one. -/
def takeFreePage (v : Vmm) : Option (Vmm × Option PageNode) := do
  let p ← v.links.next (.hdr .free)
  if p = .hdr .free then some (v, none)
  else do
    let links ← v.links.erase p
    some ({ v with links := links, freePageCounter := wordSub v.freePageCounter 1 }, some p)

/-- `Vmm::getFreePage`, by the thread `tid`. -/
def getFreePage (v : Vmm) (tid : ℕ) : Option (Vmm × Option PageNode) := v.locked tid takeFreePage

/-- Giving a node back to the free list, as both functions below do under the lock. -/
def putFreePage (v : Vmm) (p : PageNode) : Option Vmm := do
  let links ← v.links.insertBefore (.hdr .free) p
  some { v with links := links, freePageCounter := word (v.freePageCounter + 1) }

/-- The loop of `releaseProcAllPages`. -/
def releasePages (v : Vmm) (pid : ℕ) : ℕ → PageNode → PageNode → Option Vmm
  | 0, _, _ => none
  | fuel + 1, p, n =>
    if p = .hdr (.proc pid) then some v
    else match p with
      | .hdr _ => none
      | .page i => do
        let v := v.invalidPTE (v.virAddr i)
        let links ← v.links.erase p
        let v ← { v with links := links }.putFreePage p
        -- `n` is still in the list of the process.
        let n' ← v.links.next n
        v.releasePages pid fuel n n'

/-- The section of `releaseProcAllPages`. -/
def releaseAllPages (pid : ℕ) (v : Vmm) : Option (Vmm × Unit) := do
  let p ← v.links.next (.hdr (.proc pid))
  let n ← v.links.next p
  let v ← v.releasePages pid (2 ^ 32) p n
  some (v, ())

/-- `Vmm::releaseProcAllPages`. -/
def releaseProcAllPages (v : Vmm) (tid pid : ℕ) : Option Vmm :=
  (v.locked tid (releaseAllPages pid)).map Prod.fst

/-- `Vmm::mapping4KB`. -/
def mapping4KB (v : Vmm) (tid pid : ℕ) (virAddr flags : BitVec 32) (isIdentityMapping : Bool) :
    Option (ErrNo × Vmm) := do
  let (v, page) ← v.getFreePage tid
  match page with
  | none => some (.ENOMEM, v)
  | some (.hdr _) => none
  | some (.page i) => do
    let virAddr := pageBase virAddr
    let links ← v.links.insertBefore (.hdr (.proc pid)) (.page i)
    let v := { v with
      links := links
      virAddr := Function.update v.virAddr i (if isIdentityMapping then v.phyAddr i else virAddr) }
    -- The entry is for the address asked for, also of an identity mapping.
    some (.ENONE, v.insertPTE virAddr (v.phyAddr i ||| flags))

/-- The loop of `unmapping4KB`: the first descriptor with the address, from `p` on. -/
def findPage (v : Vmm) (pid : ℕ) (virAddr : BitVec 32) : ℕ → PageNode → Option (Option ℕ)
  | 0, _ => none
  | fuel + 1, p =>
    if p = .hdr (.proc pid) then some none
    else match p with
      | .hdr _ => none
      | .page i =>
        if v.virAddr i = virAddr then some (some i)
        else (v.links.next p).bind (v.findPage pid virAddr fuel)

/-- `Vmm::unmapping4KB`. The lock is taken only if there is a descriptor to give back. -/
def unmapping4KB (v : Vmm) (tid pid : ℕ) (virAddr : BitVec 32) : Option (ErrNo × Vmm) := do
  let virAddr := pageBase virAddr
  let p ← v.links.next (.hdr (.proc pid))
  let found ← v.findPage pid virAddr (2 ^ 32) p
  match found with
  | none => some (.EFAULT, v)
  | some i => do
    let links ← v.links.erase (.page i)
    let v := { v with links := links }.invalidPTE virAddr
    let (v, ()) ← v.locked tid fun v => (v.putFreePage (.page i)).map fun v => (v, ())
    some (.ENONE, v)

end Vmm

/-- The calls. -/
inductive VmmOp
  | mapping4KB (pid : ℕ) (virAddr flags : BitVec 32) (isIdentityMapping : Bool)
  | unmapping4KB (pid : ℕ) (virAddr : BitVec 32)
  | releaseProcAllPages (pid : ℕ)

namespace Vmm

/-- A call by a thread, with what it returns. -/
def call (v : Vmm) (tid : ℕ) : VmmOp → Option (ErrNo × Vmm)
  | .mapping4KB pid virAddr flags isIdentityMapping =>
    v.mapping4KB tid pid virAddr flags isIdentityMapping
  | .unmapping4KB pid virAddr => v.unmapping4KB tid pid virAddr
  | .releaseProcAllPages pid => (v.releaseProcAllPages tid pid).map fun v => (.ENONE, v)

/-- A call, with the thread that makes it. -/
def step (v : Vmm) (op : ℕ × VmmOp) : Option Vmm := (v.call op.1 op.2).map Prod.snd

/-- The thread is one of the pool, so that its id is not that of no holder. -/
def Admits (_ : Vmm) (op : ℕ × VmmOp) : Prop := op.1 < 200

/-! ## Sections under the lock -/

variable {α : Type} {v v' : Vmm} {tid : ℕ} {body : Vmm → Option (Vmm × α)} {a : α}

/-- A section leaves the lock alone. -/
def Unlocking (body : Vmm → Option (Vmm × α)) : Prop :=
  ∀ v v' a, body v = some (v', a) → v'.freePageLock = v.freePageLock

/-- With an initialised lock, a section does what its body does. -/
theorem locked_eq (hlock : v.freePageLock = .init) (htid : tid ≠ PageLock.invalid)
    (hbody : body { v with freePageLock := ⟨0, true, tid, 1⟩ } =
      some ({ v' with freePageLock := ⟨0, true, tid, 1⟩ }, a)) :
    v.locked tid body = some ({ v' with freePageLock := .init }, a) := by
  simp only [locked, hlock, PageLock.lock_init htid, Option.bind_eq_bind, Option.bind_some, hbody,
    PageLock.unlock_init]

/-- With a lock in zero-initialised storage, no section returns. -/
theorem locked_eq_none (hlock : v.freePageLock = .zero) (tid : ℕ) (hbody : Unlocking body) :
    v.locked tid body = none := by
  rw [locked, hlock, PageLock.lock_zero]
  split
  · simp only [Option.bind_eq_bind, Option.bind_some]
    cases hv : body { v with freePageLock := ⟨0, false, 0, 1⟩ } with
    | none => rfl
    | some r =>
      have hheld : r.1.freePageLock = ⟨0, false, 0, 1⟩ := hbody _ _ _ hv
      rw [Option.bind_some, hheld, PageLock.unlock_zero]
      rfl
  · rfl

theorem unlocking_takeFreePage : Unlocking takeFreePage := by
  intro v v' a h
  rw [takeFreePage] at h
  obtain ⟨p, -, h⟩ := Option.bind_eq_some_iff.1 h
  split_ifs at h
  · exact (Prod.mk.inj (Option.some.inj h)).1 ▸ rfl
  · obtain ⟨links, -, h⟩ := Option.bind_eq_some_iff.1 h
    exact (Prod.mk.inj (Option.some.inj h)).1 ▸ rfl

theorem freePageLock_putFreePage {p : PageNode} (h : v.putFreePage p = some v') :
    v'.freePageLock = v.freePageLock := by
  obtain ⟨links, -, h⟩ := Option.bind_eq_some_iff.1 h
  exact Option.some.inj h ▸ rfl

theorem freePageLock_releasePages {pid fuel : ℕ} {p n : PageNode}
    (h : v.releasePages pid fuel p n = some v') : v'.freePageLock = v.freePageLock := by
  induction fuel generalizing v p n with
  | zero => exact absurd h.symm (Option.some_ne_none v')
  | succ fuel ih =>
    rw [releasePages.eq_def] at h
    by_cases hp : p = .hdr (.proc pid)
    · simp only [hp, if_true] at h
      exact Option.some.inj h ▸ rfl
    · simp only [hp, if_false] at h
      cases p with
      | hdr _ => exact absurd h.symm (Option.some_ne_none v')
      | page i =>
        obtain ⟨links, -, h⟩ := Option.bind_eq_some_iff.1 h
        obtain ⟨v₁, hput, h⟩ := Option.bind_eq_some_iff.1 h
        obtain ⟨n', -, h⟩ := Option.bind_eq_some_iff.1 h
        have hlock := freePageLock_putFreePage hput
        exact (ih h).trans hlock

theorem unlocking_putFreePage (p : PageNode) :
    Unlocking fun v => (v.putFreePage p).map fun v => (v, ()) := by
  intro v v' a h
  obtain ⟨v₁, hput, h⟩ := Option.map_eq_some_iff.1 h
  exact (Prod.mk.inj h).1 ▸ freePageLock_putFreePage hput

theorem unlocking_releaseAllPages (pid : ℕ) : Unlocking (releaseAllPages pid) := by
  intro v v' a h
  obtain ⟨p, -, h⟩ := Option.bind_eq_some_iff.1 h
  obtain ⟨n, -, h⟩ := Option.bind_eq_some_iff.1 h
  obtain ⟨v₁, hv₁, h⟩ := Option.bind_eq_some_iff.1 h
  exact (Prod.mk.inj (Option.some.inj h)).1 ▸ freePageLock_releasePages hv₁

end Vmm

end DemoOs
