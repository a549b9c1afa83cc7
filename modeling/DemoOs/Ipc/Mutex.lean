import DemoOs.Ipc.Accounting

/-!
# Mutexes

The functions of `mutex.cpp`, by the steps of the threads between which others may run: a section of
the semaphore is a step, and so is each access to `_holder` and `_depth` (`Pc`, `Mutex.exec`). An
assertion that fails is a loop without end, of which there is no step.

A thread holds the mutex as often as its calls of `lock` and `trylock` have succeeded, minus its
calls of `unlock` (`Mutex.held`). At any time either nobody owns the semaphore of the mutex, which
then has its permit (`Free`), or a single thread does (`OwnedBy`), and only this thread writes
`_holder` and `_depth`: reading `_holder` without the semaphore, another thread never finds itself
there. Hence the mutex excludes (`Mutex.Excludes`, `excludes_of_run`), as long as the depth does not
overflow.
-/

namespace DemoOs

/-- Where a thread is in the functions of the mutex. -/
inductive Pc
  | idle
  /-- `lock`: `assert(_sem.getValue() < 2)`. -/
  | lockValue
  /-- `if(curThread->id() != _holder)`. -/
  | lockTest
  /-- `_sem.lock()`. -/
  | semLock
  /-- `assert(_holder == INVALID && …`. -/
  | holderFree
  /-- `… && _depth == 0)`. -/
  | depthZero
  /-- `trylock`: `assert(_sem.getValue() < 2)`. -/
  | tryValue
  /-- `if(_holder == curThread->id())`. -/
  | tryTest
  /-- `_sem.trylock()`. -/
  | semTrylock
  /-- `lock` and `trylock`: `_holder = curThread->id()`. -/
  | setHolder
  /-- `++_depth`: the load. -/
  | incLoad
  /-- `++_depth`: the store, with the value loaded. -/
  | incStore (d : ℤ)
  /-- `unlock`: `assert(_sem.getValue() < 1)`. -/
  | unlockValue
  /-- `assert(curThread->id() == _holder)`. -/
  | unlockHolder
  /-- `assert(_depth > 0)`. -/
  | unlockDepth
  /-- `--_depth`: the load. -/
  | decLoad
  /-- `--_depth`: the store, and the test of the result. -/
  | decStore (d : ℤ)
  /-- `_holder = INVALID`. -/
  | clearHolder
  /-- `_sem.unlock()`. -/
  | semUnlock
  deriving DecidableEq

/-- A mutex, the kernel around it, and its threads. -/
structure Mutex where
  kernel : Kernel
  /-- The semaphore `_sem`. -/
  sem : ℕ
  holder : ℕ
  depth : ℤ
  pc : Tid → Pc
  /-- The successes of `lock` and `trylock` of each thread. -/
  successes : Tid → ℕ
  /-- The calls to `unlock` of each thread that have decremented `_depth`. -/
  releases : Tid → ℕ

/-- The calls of the current thread, and its next step. -/
inductive MutexOp
  /-- The thread is now the current one, and the states of all threads are as given. -/
  | switch (t : Tid) (states : Tid → State)
  | lock
  | trylock
  | unlock
  | step

namespace Mutex

/-- `Mutex::INVALID`. -/
def invalid : ℕ := 0xFFFF

/-- `Mutex::init`. -/
def init (k : Kernel) (sem : ℕ) : Mutex where
  kernel := k.initSem sem 1
  sem := sem
  holder := invalid
  depth := 0
  pc := fun _ => .idle
  successes := fun _ => 0
  releases := fun _ => 0

/-- How often the thread holds the mutex. -/
def held (m : Mutex) (t : Tid) : ℤ := m.successes t - m.releases t

/-- The thread goes to `p`. -/
def goto (m : Mutex) (t : Tid) (p : Pc) : Mutex := { m with pc := Function.update m.pc t p }

/-- `_sem.getValue()`. -/
def value (m : Mutex) : ℤ := m.kernel.val m.sem

/-- The assertion the thread is at holds, if it is at one. -/
def asserts (m : Mutex) (t : Tid) : Bool :=
  match m.pc t with
  | .lockValue | .tryValue => m.value < 2
  | .holderFree => m.holder = invalid
  | .depthZero => m.depth = 0
  | .unlockValue => m.value < 1
  | .unlockHolder => (t : ℕ) = m.holder
  | .unlockDepth => m.depth > 0
  | _ => true

/-- The next step of the thread `t`, its assertion holding. -/
def exec (m : Mutex) (t : Tid) : Option Mutex :=
  match m.pc t with
  | .idle => none
  | .lockValue => some (m.goto t .lockTest)
  | .lockTest => some (m.goto t (if (t : ℕ) ≠ m.holder then .semLock else .incLoad))
  | .semLock => do
    let (k, blocked) ← m.kernel.lockSection m.sem
    -- A waiter starts over once it is woken.
    some ({ m with kernel := k }.goto t (if blocked then .semLock else .holderFree))
  | .holderFree => some (m.goto t .depthZero)
  | .depthZero => some (m.goto t .setHolder)
  | .tryValue => some (m.goto t .tryTest)
  | .tryTest => some (m.goto t (if m.holder = (t : ℕ) then .incLoad else .semTrylock))
  | .semTrylock =>
    let (k, res) := m.kernel.trylock m.sem
    some ({ m with kernel := k }.goto t (if res then .setHolder else .idle))
  | .setHolder => some ({ m with holder := t }.goto t .incLoad)
  | .incLoad => some (m.goto t (.incStore m.depth))
  | .incStore d =>
    let successes := Function.update m.successes t (m.successes t + 1)
    some ({ m with depth := sint (d + 1), successes := successes }.goto t .idle)
  | .unlockValue => some (m.goto t .unlockHolder)
  | .unlockHolder => some (m.goto t .unlockDepth)
  | .unlockDepth => some (m.goto t .decLoad)
  | .decLoad => some (m.goto t (.decStore m.depth))
  | .decStore d =>
    let releases := Function.update m.releases t (m.releases t + 1)
    some ({ m with depth := sint (d - 1), releases := releases }.goto t
      (if sint (d - 1) = 0 then .clearHolder else .idle))
  | .clearHolder => some ({ m with holder := invalid }.goto t .semUnlock)
  | .semUnlock => do
    let k ← m.kernel.unlock m.sem
    some ({ m with kernel := k }.goto t .idle)

/-- The current thread, if it is one, is idle and calls the function beginning at `p`. -/
def call (m : Mutex) (p : Pc) : Option Mutex :=
  match m.kernel.curThread with
  | .thread t => if m.pc t = .idle then some (m.goto t p) else none
  | .hdr _ => none

/-- The steps of the current thread. -/
def step (m : Mutex) : MutexOp → Option Mutex
  | .switch t states => some { m with kernel := m.kernel.switch t states }
  | .lock => m.call .lockValue
  | .trylock => m.call .tryValue
  | .unlock => m.call .unlockValue
  | .step =>
    match m.kernel.curThread with
    | .thread t => if m.asserts t then m.exec t else none
    | .hdr _ => none

/-! ## The invariant -/

variable {m m' : Mutex} {R : Hdr → Cycle Node} {t u o : Tid} {p : Pc}

/-- The thread does not own the semaphore of the mutex, and is not about to. -/
def Outside (m : Mutex) (t : Tid) : Prop :=
  m.held t = 0 ∧ match m.pc t with
    | .idle | .lockValue | .lockTest | .semLock | .tryValue | .tryTest | .semTrylock => True
    | _ => False

/-- The thread owns the semaphore of the mutex, with the holder and depth as they are to be. -/
def Owns (m : Mutex) (o : Tid) : Prop :=
  match m.pc o with
  | .idle => m.holder = (o : ℕ) ∧ m.depth = m.held o ∧ 0 < m.held o ∧ m.held o < 2 ^ 31
  | .lockValue | .lockTest | .tryValue | .tryTest =>
    m.holder = (o : ℕ) ∧ m.depth = m.held o ∧ 0 < m.held o ∧ m.held o + 1 < 2 ^ 31
  | .semLock | .semTrylock => False
  | .holderFree | .depthZero | .setHolder => m.holder = invalid ∧ m.depth = 0 ∧ m.held o = 0
  | .incLoad => m.holder = (o : ℕ) ∧ m.depth = m.held o ∧ 0 ≤ m.held o ∧ m.held o + 1 < 2 ^ 31
  | .incStore d => d = m.depth ∧
    m.holder = (o : ℕ) ∧ m.depth = m.held o ∧ 0 ≤ m.held o ∧ m.held o + 1 < 2 ^ 31
  | .unlockValue | .unlockHolder | .unlockDepth | .decLoad =>
    m.holder = (o : ℕ) ∧ m.depth = m.held o ∧ 0 < m.held o ∧ m.held o < 2 ^ 31
  | .decStore d => d = m.depth ∧
    m.holder = (o : ℕ) ∧ m.depth = m.held o ∧ 0 < m.held o ∧ m.held o < 2 ^ 31
  | .clearHolder => m.holder = (o : ℕ) ∧ m.depth = 0 ∧ m.held o = 0
  | .semUnlock => m.holder = invalid ∧ m.depth = 0 ∧ m.held o = 0

/-- The threads waiting for the mutex. -/
def waiters (m : Mutex) : Set Tid := m.kernel.waiters m.sem

/-- Nobody owns the mutex: the semaphore has its permit. -/
structure Free (m : Mutex) : Prop where
  value : m.value = 1
  waiters : m.waiters = ∅
  holder : m.holder = invalid
  depth : m.depth = 0
  outside : ∀ t, m.Outside t

/-- The thread `o` owns the mutex: the permit is taken. -/
structure OwnedBy (m : Mutex) (o : Tid) : Prop where
  value : m.value + m.waiters.ncard = 0
  id_lt : (o : ℕ) < invalid
  owns : m.Owns o
  outside : ∀ t, t ≠ o → m.Outside t

/-- The invariant. -/
structure Inv (m : Mutex) : Prop where
  shape : ∃ R, m.kernel.Shape R
  owner : m.Free ∨ ∃ o, m.OwnedBy o

section Goto

variable (m t p)

@[simp] theorem goto_kernel : (m.goto t p).kernel = m.kernel := rfl

@[simp] theorem goto_value : (m.goto t p).value = m.value := rfl

@[simp] theorem goto_waiters : (m.goto t p).waiters = m.waiters := rfl

@[simp] theorem goto_holder : (m.goto t p).holder = m.holder := rfl

@[simp] theorem goto_depth : (m.goto t p).depth = m.depth := rfl

@[simp] theorem goto_held : (m.goto t p).held u = m.held u := rfl

@[simp] theorem goto_pc_self : (m.goto t p).pc t = p := Function.update_self ..

/-- The other threads are where they were. -/
theorem goto_pc_of_ne (h : u ≠ t) : (m.goto t p).pc u = m.pc u := Function.update_of_ne h ..

end Goto

/-- The thread is the current one, on no list other than a ready ring, and its identifier is not
    `INVALID`. -/
def Acts (m : Mutex) (t : Tid) : Prop :=
  m.kernel.curThread = .thread t ∧ m.kernel.OnlyReady t ∧ (t : ℕ) < invalid

/-- Only threads that run take steps, and only the holder calls `unlock`. -/
def Calls (m : Mutex) : MutexOp → Prop
  | .switch _ _ => True
  | .lock | .trylock | .step => ∃ t, m.Acts t
  | .unlock => ∃ t, m.Acts t ∧ 0 < m.held t

/-- Besides, `_depth` does not overflow. -/
def MutexOk (m : Mutex) : MutexOp → Prop
  | .switch _ _ => True
  | .lock | .trylock => ∃ t, m.Acts t ∧ m.held t + 1 < 2 ^ 31
  | .unlock => ∃ t, m.Acts t ∧ 0 < m.held t
  | .step => ∃ t, m.Acts t

/-- The thread is about to complete its first `lock` or its last `unlock`: it is the holder, at
    depth zero. -/
def AtZero (m : Mutex) (t : Tid) : Prop :=
  match m.pc t with
  | .incLoad | .incStore _ => m.held t = 0
  | .clearHolder => True
  | _ => False

/-- An owner is inside. -/
theorem Owns.not_outside (h : m.Owns o) : ¬m.Outside o := by
  rintro ⟨hheld, hpc⟩
  unfold Owns at h
  split at h <;> simp_all

/-- The owner is the holder, but at the ends of `lock` and `unlock`. -/
theorem Owns.holder (h : m.Owns o) :
    (m.holder = (o : ℕ) ∧ m.depth = m.held o ∧ 0 ≤ m.held o ∧ (m.held o = 0 → m.AtZero o)) ∨
      (m.holder = invalid ∧ m.depth = 0 ∧ m.held o = 0) := by
  unfold Owns at h
  unfold AtZero
  split at h <;> rename_i hpc <;> simp only [hpc, implies_true, and_true] at * <;> omega

/-- While there is an owner, nobody else can take it. -/
theorem OwnedBy.value_le (h : m.OwnedBy o) : m.value ≤ 0 := by
  have := h.value
  omega

/-- Who owns the mutex is no other thread's business. -/
theorem Outside.congr (h : m.Outside u) (hheld : m'.held u = m.held u) (hpc : m'.pc u = m.pc u) :
    m'.Outside u := by
  rw [Outside, hheld, hpc]
  exact h

/-- An owner is one by what the lock has of it. -/
theorem Owns.congr (h : m.Owns o) (hheld : m'.held o = m.held o) (hpc : m'.pc o = m.pc o)
    (hholder : m'.holder = m.holder) (hdepth : m'.depth = m.depth) : m'.Owns o := by
  rw [Owns, hheld, hpc, hholder, hdepth]
  exact h

/-- A step outside. -/
theorem Inv.goto_outside (h : m.Inv) (ht : m.Outside t) (hp : (m.goto t p).Outside t) :
    (m.goto t p).Inv := by
  have houtside : ∀ u, m.Outside u → (m.goto t p).Outside u := by
    intro u hu
    by_cases hut : u = t
    · exact hut ▸ hp
    · exact hu.congr rfl (goto_pc_of_ne _ _ _ hut)
  refine ⟨h.shape, h.owner.imp (fun h => ?_) fun ⟨o, h⟩ => ⟨o, ?_⟩⟩
  · exact ⟨h.value, h.waiters, h.holder, h.depth, fun u => houtside u (h.outside u)⟩
  · have hot : o ≠ t := by
      rintro rfl
      exact h.owns.not_outside ht
    exact ⟨h.value, h.id_lt, h.owns.congr rfl (goto_pc_of_ne _ _ _ hot) rfl rfl,
      fun u hu => houtside u (h.outside u hu)⟩

/-- A step of the owner that leaves the semaphore alone. -/
theorem OwnedBy.local (h : m.OwnedBy o) (hs : ∃ R, m.kernel.Shape R) (hk : m'.kernel = m.kernel)
    (hsem : m'.sem = m.sem) (hheld : ∀ u, u ≠ o → m'.held u = m.held u)
    (hpc : ∀ u, u ≠ o → m'.pc u = m.pc u) (howns : m'.Owns o) : m'.Inv := by
  refine ⟨hk ▸ hs, .inr ⟨o, ?_, h.id_lt, howns, fun u hu =>
    (h.outside u hu).congr (hheld u hu) (hpc u hu)⟩⟩
  rw [Mutex.value, Mutex.waiters, hk, hsem]
  exact h.value

/-- The owner goes on. -/
theorem OwnedBy.goto (h : m.OwnedBy o) (hs : ∃ R, m.kernel.Shape R) (howns : (m.goto o p).Owns o) :
    (m.goto o p).Inv :=
  h.local hs rfl rfl (fun _ _ => rfl) (fun _ hu => goto_pc_of_ne _ _ _ hu) howns

/-- A call of the current thread. -/
theorem Inv.call (h : m.Inv) (hcur : m.kernel.curThread = .thread t)
    (hp : m.Outside t → (m.goto t p).Outside t)
    (howns : m.pc t = .idle → m.Owns t → (m.goto t p).Owns t)
    (hcall : m.call p = some m') : m'.Inv := by
  simp only [Mutex.call, hcur] at hcall
  split_ifs at hcall with hidle
  obtain rfl := Option.some.inj hcall
  by_cases ht : m.Outside t
  · exact h.goto_outside ht (hp ht)
  · rcases h.owner with hfree | ⟨o, ho⟩
    · exact absurd (hfree.outside t) ht
    · obtain rfl : o = t := by
        by_contra hot
        exact ht (ho.outside t (Ne.symm hot))
      exact ho.goto h.shape (howns hidle ho.owns)

/-- The assertions hold. -/
theorem Inv.asserts (h : m.Inv) (t : Tid) : m.asserts t = true := by
  have hlt : m.value < 2 := by
    rcases h.owner with hfree | ⟨o, ho⟩
    · exact hfree.value.trans_lt (by decide)
    · exact ho.value_le.trans_lt (by decide)
  by_cases ht : m.Outside t
  · obtain ⟨-, hpc⟩ := ht
    unfold Mutex.asserts
    split at hpc <;> simp_all
  · obtain ⟨ho, hval⟩ : m.Owns t ∧ m.value ≤ 0 := by
      rcases h.owner with hfree | ⟨o, ho⟩
      · exact absurd (hfree.outside t) ht
      · by_cases hot : t = o
        · exact ⟨hot ▸ ho.owns, ho.value_le⟩
        · exact absurd (ho.outside t hot) ht
    unfold Mutex.asserts
    unfold Owns at ho
    split at ho <;> simp_all
    all_goals omega

/-! ## The steps -/

/-- A thread outside is not the holder. -/
theorem Inv.ne_holder (h : m.Inv) (ht : m.Outside t) (hid : (t : ℕ) < invalid) :
    (t : ℕ) ≠ m.holder := by
  rcases h.owner with hfree | ⟨o, ho⟩
  · rw [hfree.holder]
    exact hid.ne
  · have hot : t ≠ o := by
      rintro rfl
      exact ho.owns.not_outside ht
    rcases ho.owns.holder with ⟨heq, -⟩ | ⟨heq, -⟩ <;> rw [heq]
    · exact fun h => hot (Fin.ext h)
    · exact hid.ne

/-- A thread acquires the permit. -/
theorem Free.acquire {k : Kernel} (h : m.Free) (hid : (t : ℕ) < invalid)
    (hp : p = .holderFree ∨ p = .setHolder) (hk : k = m.kernel.decVal m.sem) :
    ({ m with kernel := k }.goto t p).OwnedBy t := by
  have hheld := (h.outside t).1
  refine ⟨?_, hid, ?_, fun u hu => (h.outside u).congr rfl (goto_pc_of_ne _ _ _ hu)⟩
  · have hval : k.val m.sem = 0 := by
      rw [hk, Kernel.decVal_val, show m.kernel.val m.sem = 1 from h.value]
      decide
    have hw : k.waiters m.sem = ∅ := by
      rw [hk]
      exact h.waiters
    rw [goto_value, goto_waiters]
    simp only [Mutex.value, Mutex.waiters, hval, hw, Set.ncard_empty]
    decide
  · rcases hp with rfl | rfl <;> simpa [Owns] using ⟨h.holder, h.depth, hheld⟩

/-- A thread without a permit waits for the mutex. -/
theorem OwnedBy.wait {k : Kernel} {c : Tid} (h : m.OwnedBy o) (ht : m.Outside t)
    (hpc : m.pc t = .semLock) (hval : k.val = (m.kernel.decVal m.sem).val) (hc : c ∉ m.waiters)
    (hw : k.waiters m.sem = insert c m.waiters) :
    ({ m with kernel := k }.goto t .semLock).OwnedBy o := by
  have hot : o ≠ t := by
    rintro rfl
    exact h.owns.not_outside ht
  have hsame : ({ m with kernel := k }.goto t .semLock).pc = m.pc := by
    rw [← hpc]
    exact Function.update_eq_self ..
  refine ⟨?_, h.id_lt, h.owns.congr rfl (congrFun hsame o) rfl rfl,
    fun u hu => (h.outside u hu).congr rfl (congrFun hsame u)⟩
  have hsum := h.value
  have hle := m.kernel.ncard_waiters_le m.sem
  have hval : k.val m.sem = m.value - 1 := by
    rw [hval, Kernel.decVal_val]
    refine sint_eq ?_ ?_ <;> simp only [Mutex.value, Mutex.waiters] at hsum ⊢ <;> omega
  have hcard : (k.waiters m.sem).ncard = m.waiters.ncard + 1 := by
    rw [hw]
    exact Set.ncard_insert_of_notMem hc
  rw [goto_value, goto_waiters]
  simp only [Mutex.value, Mutex.waiters, hcard] at hsum hval ⊢
  omega

/-- A step of a thread outside. -/
theorem Inv.exec_outside (h : m.Inv) (hruns : m.kernel.Runs) (ht : m.Outside t)
    (hid : (t : ℕ) < invalid) (hexec : m.exec t = some m') : m'.Inv := by
  have hne := h.ne_holder ht hid
  obtain ⟨R, hs⟩ := h.shape
  have hout := ht.2
  unfold Mutex.exec at hexec
  cases hpc : m.pc t with
  | idle =>
    rw [hpc] at hexec
    cases hexec
  | lockValue | tryValue =>
    rw [hpc] at hexec
    exact Option.some.inj hexec ▸ h.goto_outside ht ⟨ht.1, by simp⟩
  | lockTest =>
    simp only [hpc, if_pos hne] at hexec
    exact Option.some.inj hexec ▸ h.goto_outside ht ⟨ht.1, by simp⟩
  | tryTest =>
    simp only [hpc, if_neg (Ne.symm hne)] at hexec
    exact Option.some.inj hexec ▸ h.goto_outside ht ⟨ht.1, by simp⟩
  | semLock =>
    rw [hpc] at hexec
    obtain ⟨x, hx, hexec⟩ := Option.bind_eq_some_iff.1 hexec
    obtain rfl := Option.some.inj hexec
    -- The semaphore has one permit if the mutex is free, and none while somebody owns it.
    rcases h.owner with hfree | ⟨o, ho⟩
    · have hval : m.kernel.val m.sem = 1 := hfree.value
      rw [Kernel.lockSection_of_nonneg (by rw [hval]; decide)] at hx
      obtain rfl := Option.some.inj hx
      exact ⟨⟨R, hs.congr rfl rfl fun _ => rfl⟩, .inr ⟨t, hfree.acquire hid (.inl rfl) rfl⟩⟩
    · have hblocks : m.kernel.Blocks m.sem := by
        have := ho.value
        have := m.kernel.ncard_waiters_le m.sem
        simp only [Mutex.value, Mutex.waiters] at *
        rw [Kernel.Blocks, sint_eq (by omega) (by omega)]
        omega
      obtain ⟨hx₂, hshape, hval, c, hc, hw, -⟩ := hs.lockSection_blocks hruns hblocks hx
      simp only [hx₂, if_true]
      exact ⟨hshape, .inr ⟨o, ho.wait ht hpc hval hc hw⟩⟩
  | semTrylock =>
    rw [hpc] at hexec
    rcases h.owner with hfree | ⟨o, ho⟩
    · have hval : m.kernel.val m.sem = 1 := hfree.value
      simp only [Kernel.trylock_of_pos (by rw [hval]; decide)] at hexec
      obtain rfl := Option.some.inj hexec
      exact ⟨⟨R, hs.congr rfl rfl fun _ => rfl⟩, .inr ⟨t, hfree.acquire hid (.inr rfl) rfl⟩⟩
    · simp only [Kernel.trylock_of_not_pos (not_lt.2 ho.value_le)] at hexec
      exact Option.some.inj hexec ▸ h.goto_outside ht ⟨ht.1, by simp⟩
  | _ =>
    rw [hpc] at hout
    exact hout.elim

/-- The owner has entered once more. -/
theorem OwnedBy.enter {d : ℤ} (h : m.OwnedBy o) (hs : ∃ R, m.kernel.Shape R)
    (hpc : m.pc o = .incStore d) (hexec : m.exec o = some m') : m'.Inv := by
  have howns := h.owns
  simp only [Owns, hpc] at howns
  obtain ⟨rfl, hholder, hdepth, hheld, hlt⟩ := howns
  simp only [Mutex.exec, hpc, Option.some.injEq] at hexec
  obtain rfl := hexec
  refine h.local hs rfl rfl (fun u hu => ?_) (fun u hu => goto_pc_of_ne _ _ _ hu) ?_
  · rw [goto_held]
    simp only [held, Function.update_of_ne hu]
  · have hsint : sint (m.depth + 1) = m.depth + 1 := sint_eq (by omega) (by omega)
    simp only [Owns, goto_pc_self, goto_holder, goto_depth, goto_held, hsint]
    simp only [held, Function.update_self] at hdepth hheld hlt ⊢
    omega

/-- The owner has left once; if it has left as often as it entered, it gives the mutex up. -/
theorem OwnedBy.leave {d : ℤ} (h : m.OwnedBy o) (hs : ∃ R, m.kernel.Shape R)
    (hpc : m.pc o = .decStore d) (hexec : m.exec o = some m') : m'.Inv := by
  have howns := h.owns
  simp only [Owns, hpc] at howns
  obtain ⟨rfl, hholder, hdepth, hheld, hlt⟩ := howns
  simp only [Mutex.exec, hpc, Option.some.injEq] at hexec
  obtain rfl := hexec
  refine h.local hs rfl rfl (fun u hu => ?_) (fun u hu => goto_pc_of_ne _ _ _ hu) ?_
  · rw [goto_held]
    simp only [held, Function.update_of_ne hu]
  · have hsint : sint (m.depth - 1) = m.depth - 1 := sint_eq (by omega) (by omega)
    rw [hsint]
    split_ifs with hzero <;>
      simp only [Owns, goto_pc_self, goto_holder, goto_depth, goto_held] <;>
      simp only [held, Function.update_self] at hdepth hheld hlt ⊢ <;>
      omega

/-- The semaphore has its permit again, and nobody waits for it. -/
theorem OwnedBy.release (h : m.OwnedBy o) (hs : ∃ R, m.kernel.Shape R) (hpc : m.pc o = .semUnlock)
    (hexec : m.exec o = some m') : m'.Inv := by
  obtain ⟨R, hs⟩ := hs
  have howns := h.owns
  simp only [Owns, hpc] at howns
  obtain ⟨hholder, hdepth, hheld⟩ := howns
  simp only [Mutex.exec, hpc] at hexec
  obtain ⟨k, hk, hexec⟩ := Option.bind_eq_some_iff.1 hexec
  obtain rfl := Option.some.inj hexec
  obtain ⟨k', hk', hshape, hempty, -, hval⟩ := hs.unlock (σ := m.sem)
  obtain rfl : k' = k := Option.some.inj (hk'.symm.trans hk)
  have hsum := h.value
  have hle := m.kernel.ncard_waiters_le m.sem
  simp only [Mutex.value, Mutex.waiters] at hsum
  have hone : k'.val m.sem = 1 := by
    rw [hval (by omega) (by omega)]
    omega
  refine ⟨hshape, .inl ⟨hone, hempty, hholder, hdepth, fun u => ?_⟩⟩
  by_cases hu : u = o
  · subst hu
    exact ⟨hheld, by simp⟩
  · exact (h.outside u hu).congr rfl (goto_pc_of_ne _ _ _ hu)

/-- A step of the owner. -/
theorem OwnedBy.exec (h : m.OwnedBy o) (hs : ∃ R, m.kernel.Shape R) (hexec : m.exec o = some m') :
    m'.Inv := by
  have howns := h.owns
  cases hpc : m.pc o with
  | idle =>
    simp only [Mutex.exec, hpc] at hexec
    cases hexec
  -- The owner is past these two steps.
  | semLock | semTrylock => simp only [Owns, hpc] at howns
  | incStore d => exact h.enter hs hpc hexec
  | decStore d => exact h.leave hs hpc hexec
  | semUnlock => exact h.release hs hpc hexec
  | lockTest =>
    simp only [Owns, hpc] at howns
    simp only [Mutex.exec, hpc, howns.1, ne_eq, not_true, if_false, Option.some.injEq] at hexec
    subst hexec
    refine h.goto hs ?_
    simp only [Owns, goto_pc_self, goto_holder, goto_depth, goto_held]
    omega
  | tryTest =>
    simp only [Owns, hpc] at howns
    simp only [Mutex.exec, hpc, howns.1, if_true, Option.some.injEq] at hexec
    subst hexec
    refine h.goto hs ?_
    simp only [Owns, goto_pc_self, goto_holder, goto_depth, goto_held]
    omega
  | setHolder | clearHolder =>
    simp only [Owns, hpc] at howns
    simp only [Mutex.exec, hpc, Option.some.injEq] at hexec
    subst hexec
    refine h.local hs rfl rfl (fun _ _ => rfl) (fun _ hu => goto_pc_of_ne _ _ _ hu) ?_
    simp only [Owns, goto_pc_self, goto_holder, goto_depth, goto_held]
    simp only [held, true_and] at howns ⊢
    omega
  -- The other steps only move on.
  | _ =>
    simp only [Owns, hpc] at howns
    simp only [Mutex.exec, hpc, Option.some.injEq] at hexec
    subst hexec
    refine h.goto hs ?_
    simp only [Owns, goto_pc_self, goto_holder, goto_depth, goto_held, true_and]
    omega

/-- A step of the thread `t`. -/
theorem Inv.exec (h : m.Inv) (hacts : m.Acts t) (hexec : m.exec t = some m') : m'.Inv := by
  obtain ⟨hcur, hready, hid⟩ := hacts
  by_cases ht : m.Outside t
  · exact h.exec_outside ⟨t, hcur, hready⟩ ht hid hexec
  · rcases h.owner with hfree | ⟨o, ho⟩
    · exact absurd (hfree.outside t) ht
    · by_cases hto : t = o
      · subst hto
        exact ho.exec h.shape hexec
      · exact absurd (ho.outside t hto) ht

/-- The scheduler does not touch the mutex. -/
theorem Inv.switch (h : m.Inv) (t : Tid) (states : Tid → State) :
    ({ m with kernel := m.kernel.switch t states } : Mutex).Inv := by
  obtain ⟨R, hs⟩ := h.shape
  refine ⟨⟨R, hs.congr rfl rfl fun _ => rfl⟩, h.owner.imp (fun hfree => ?_) fun ⟨o, ho⟩ => ⟨o, ?_⟩⟩
  · exact ⟨hfree.value, hfree.waiters, hfree.holder, hfree.depth, hfree.outside⟩
  · exact ⟨ho.value, ho.id_lt, ho.owns, ho.outside⟩

/-- Every step keeps the invariant. -/
theorem Inv.step {op : MutexOp} (h : m.Inv) (hok : m.MutexOk op) (hstep : m.step op = some m') :
    m'.Inv := by
  cases op with
  | switch => exact Option.some.inj hstep ▸ h.switch _ _
  | lock =>
    obtain ⟨t, ⟨hcur, -⟩, hlt⟩ := hok
    refine h.call hcur (fun ht => ⟨ht.1, by simp⟩) (fun hidle ho => ?_) hstep
    simp only [Owns, hidle] at ho
    simp only [Owns, goto_pc_self, goto_holder, goto_depth, goto_held]
    omega
  | trylock =>
    obtain ⟨t, ⟨hcur, -⟩, hlt⟩ := hok
    refine h.call hcur (fun ht => ⟨ht.1, by simp⟩) (fun hidle ho => ?_) hstep
    simp only [Owns, hidle] at ho
    simp only [Owns, goto_pc_self, goto_holder, goto_depth, goto_held]
    omega
  | unlock =>
    obtain ⟨t, ⟨hcur, -⟩, hpos⟩ := hok
    refine h.call hcur (fun ht => absurd ht.1 hpos.ne') (fun hidle ho => ?_) hstep
    simp only [Owns, hidle] at ho
    simp only [Owns, goto_pc_self, goto_holder, goto_depth, goto_held]
    exact ho
  | step =>
    obtain ⟨t, hacts⟩ := hok
    simp only [Mutex.step, hacts.1] at hstep
    split_ifs at hstep
    exact h.exec hacts hstep

/-- Initially, nobody owns the mutex. -/
theorem free_init {k : Kernel} {sem : ℕ} (hs : k.Shape R) (hw : ∀ t, ¬k.OnList (.waiters sem) t) :
    (init k sem).Free := by
  refine ⟨Function.update_self .., ?_, rfl, rfl, fun t => ⟨sub_self _, trivial⟩⟩
  refine Set.eq_empty_of_forall_notMem fun t ht => hw t ?_
  exact hs.onList_iff.2 ((hs.initSem hw 1).onList_iff.1 ht)

/-! ## Runs -/

/-- The mutex excludes all threads but one, which it knows. -/
structure Excludes (m : Mutex) : Prop where
  unique : ∀ t u, 0 < m.held t → 0 < m.held u → t = u
  holder_eq : ∀ t, 0 < m.held t → m.holder = (t : ℕ) ∧ m.depth = m.held t
  held_eq : ∀ t : Tid, (t : ℕ) < invalid → m.holder = (t : ℕ) → m.depth = m.held t
  holder_eq_invalid_iff : (∀ t, ¬m.AtZero t) → (m.holder = invalid ↔ m.depth = 0)
  value_le : m.value ≤ 1
  asserts : ∀ t, m.asserts t = true

/-- If it is free, nobody is inside. -/
theorem Free.excludes (h : m.Free) (hinv : m.Inv) : m.Excludes where
  unique _ _ ht _ := absurd (h.outside _).1 ht.ne'
  holder_eq _ ht := absurd (h.outside _).1 ht.ne'
  held_eq _ ht hholder := absurd (hholder.symm.trans h.holder) ht.ne
  holder_eq_invalid_iff _ := iff_of_true h.holder h.depth
  value_le := h.value.le
  asserts := hinv.asserts

/-- If it has an owner, only this one is. -/
theorem OwnedBy.excludes (h : m.OwnedBy o) (hinv : m.Inv) : m.Excludes := by
  have howner : ∀ t, 0 < m.held t → t = o := by
    intro t ht
    by_contra hto
    exact ht.ne' (h.outside t hto).1
  have hid := h.id_lt
  have hholder := h.owns.holder
  refine ⟨fun t u ht hu => (howner t ht).trans (howner u hu).symm, fun t ht => ?_,
    fun t ht heq => ?_, fun hzero => ?_, h.value_le.trans (by decide), hinv.asserts⟩
  · obtain rfl := howner t ht
    omega
  · obtain rfl : t = o := Fin.ext (by omega)
    omega
  · rcases hholder with ⟨heq, hdepth, -, hend⟩ | ⟨heq, hdepth, -⟩
    · have hne : m.held o ≠ 0 := fun h => hzero o (hend h)
      exact iff_of_false (by omega) (by omega)
    · exact iff_of_true heq hdepth

/-- In any case, at most one is. -/
theorem Inv.excludes (h : m.Inv) : m.Excludes := by
  rcases h.owner with hfree | ⟨o, ho⟩
  exacts [hfree.excludes h, ho.excludes h]

/-- In every state of such a run, the mutex excludes. -/
theorem excludes_of_run {k : Kernel} {sem : ℕ} (hs : k.Shape R)
    (hw : ∀ t, ¬k.OnList (.waiters sem) t) (hrun : Run step MutexOk (init k sem) m) : m.Excludes :=
  (hrun.invariant (I := Inv) (fun h hok hstep => h.step hok hstep) 
    ⟨⟨R, hs.initSem hw 1⟩, .inl (free_init hs hw)⟩).excludes

/-! ## Calls to `lock` without interference -/

section Alone

variable {G : Mutex → MutexOp → Prop} {m₀ : Mutex}

/-- `++_depth`, at the end of a call to `lock`. -/
def deepen (m : Mutex) (t : Tid) : Mutex :=
  { m with
    depth := sint (m.depth + 1)
    successes := Function.update m.successes t (m.successes t + 1) }

/-- The thread has completed a call to `lock`. -/
def entered (m : Mutex) (t : Tid) : Mutex := (m.deepen t).goto t .idle

/-- A free mutex, its permit taken. -/
def taken (m : Mutex) : Mutex := { m with kernel := m.kernel.decVal m.sem }

/-- The thread is the holder. -/
def setHolder (m : Mutex) (t : Tid) : Mutex := { m with holder := t }

/-- A thread goes on. -/
theorem goto_goto (m : Mutex) (t : Tid) (p q : Pc) : (m.goto t p).goto t q = m.goto t q := by
  simp only [goto, Function.update_idem]

/-- It holds the lock once more. -/
theorem entered_held (m : Mutex) (t : Tid) : (m.entered t).held t = m.held t + 1 := by
  rw [entered, goto_held]
  simp only [deepen, held, Function.update_self]
  omega

/-- The others hold it as before. -/
theorem entered_held_of_ne (m : Mutex) (h : u ≠ t) : (m.entered t).held u = m.held u := by
  rw [entered, goto_held]
  simp only [deepen, held, Function.update_of_ne h]

/-- A thread calls `lock`. -/
theorem Acts.run_lock (h : m.Acts t) (hpc : m.pc t = .idle) (hG : G m .lock) :
    Run step G m (m.goto t .lockValue) := by
  refine Run.refl.tail hG ?_
  simp only [step, call, h.1, hpc, if_true]

variable (hG : ∀ {m t}, Acts m t → G m .step)
include hG

/-- It takes a step. -/
theorem Acts.run_step (h : m.Acts t) (hrun : Run step G m₀ (m.goto t p))
    (hasserts : (m.goto t p).asserts t = true) (hexec : (m.goto t p).exec t = some m') :
    Run step G m₀ m' := by
  refine hrun.tail (hG (t := t) h) ?_
  rw [step, goto_kernel, h.1]
  exact (if_pos hasserts).trans hexec

/-- It enters. -/
theorem Acts.run_entered (h : m.Acts t) (hrun : Run step G m₀ (m.goto t .incLoad)) :
    Run step G m₀ (m.entered t) := by
  have hload : Run step G m₀ (m.goto t (.incStore m.depth)) :=
    h.run_step hG hrun (by simp [asserts]) (by simp [exec, goto_goto])
  refine h.run_step hG hload (by simp [asserts]) ?_
  simp only [exec, goto_pc_self]
  exact congrArg some (goto_goto (m.deepen t) ..)

/-- The holder locks the mutex again. -/
theorem Acts.run_relock (h : m.Acts t) (hpc : m.pc t = .idle) (hlock : G m .lock)
    (hholder : m.holder = (t : ℕ)) (hval : m.value < 2) : Run step G m (m.entered t) := by
  have htest : Run step G m (m.goto t .lockTest) :=
    h.run_step hG (h.run_lock hpc hlock) (by simp [asserts, hval]) (by simp [exec, goto_goto])
  exact h.run_entered hG
    (h.run_step hG htest (by simp [asserts]) (by simp [exec, goto_goto, hholder]))

/-- A free mutex is locked, up to the increment of `_depth`. -/
theorem Acts.run_first (h : m.Acts t) (hfree : m.Free) (hpc : m.pc t = .idle) (hlock : G m .lock) :
    Run step G m ((m.taken.setHolder t).goto t .incLoad) := by
  have hne : (t : ℕ) ≠ m.holder := by
    rw [hfree.holder]
    exact h.2.2.ne
  have htest : Run step G m (m.goto t .lockTest) :=
    h.run_step hG (h.run_lock hpc hlock) (by simp [asserts, hfree.value])
      (by simp [exec, goto_goto])
  have hsem : Run step G m (m.goto t .semLock) :=
    h.run_step hG htest (by simp [asserts]) (by simp [exec, goto_goto, hne])
  have hsection : m.kernel.lockSection m.sem = some (m.kernel.decVal m.sem, false) :=
    Kernel.lockSection_of_nonneg (by rw [show m.kernel.val m.sem = 1 from hfree.value]; decide)
  have htaken : Run step G m (m.taken.goto t .holderFree) := by
    refine h.run_step hG hsem (by simp [asserts]) ?_
    simp only [exec, goto_pc_self]
    exact (congrArg (Option.bind · _) hsection).trans (congrArg some (goto_goto m.taken ..))
  have h' : m.taken.Acts t := h
  have hdepth : Run step G m (m.taken.goto t .depthZero) :=
    h'.run_step hG htaken (by simp [asserts, taken, hfree.holder]) (by simp [exec, goto_goto])
  have hset : Run step G m (m.taken.goto t .setHolder) :=
    h'.run_step hG hdepth (by simp [asserts, taken, hfree.depth]) (by simp [exec, goto_goto])
  refine h'.run_step hG hset (by simp [asserts]) ?_
  simp only [exec, goto_pc_self]
  exact congrArg some (goto_goto (m.taken.setHolder t) ..)

/-- Another thread tries the mutex in vain. -/
theorem Acts.run_trylock (h : m.Acts t) (hpc : m.pc t = .idle) (htry : G m .trylock)
    (hholder : m.holder ≠ (t : ℕ)) (hval : m.value ≤ 0) : Run step G m (m.goto t .idle) := by
  have hcall : Run step G m (m.goto t .tryValue) := by
    refine Run.refl.tail htry ?_
    simp only [step, call, h.1, hpc, if_true]
  have hlt : m.value < 2 := by omega
  have htest : Run step G m (m.goto t .tryTest) :=
    h.run_step hG hcall (by simp [asserts, hlt]) (by simp [exec, goto_goto])
  have hsem : Run step G m (m.goto t .semTrylock) :=
    h.run_step hG htest (by simp [asserts]) (by simp [exec, goto_goto, hholder])
  have hfails : m.kernel.trylock (m.goto t .semTrylock).sem = (m.kernel, false) :=
    if_neg (not_lt.2 hval)
  refine h.run_step hG hsem (by simp [asserts]) ?_
  simp only [exec, goto_pc_self, goto_kernel, hfails, Bool.false_eq_true, if_false]
  exact congrArg some (goto_goto m ..)

/-- Nothing stops the holder from locking the mutex ever again. -/
theorem Acts.run_deep (h : m.Acts t) (hpc : m.pc t = .idle) (hlock : ∀ {m}, Acts m t → G m .lock)
    (hholder : m.holder = (t : ℕ)) (hval : m.value < 2)
    (hdepth : m.depth = sint (m.held t)) (n : ℕ) :
    ∃ m', Run step G m m' ∧ m'.Acts t ∧ m'.pc t = .idle ∧ m'.holder = (t : ℕ) ∧ m'.value < 2 ∧
      m'.held t = m.held t + n ∧ m'.depth = sint (m'.held t) := by
  induction n with
  | zero => exact ⟨m, .refl, h, hpc, hholder, hval, (add_zero _).symm, hdepth⟩
  | succ n ih =>
    obtain ⟨m', hrun, h', hpc', hholder', hval', hheld', hdepth'⟩ := ih
    refine ⟨m'.entered t, hrun.trans (h'.run_relock hG hpc' (hlock h') hholder' hval'), h',
      goto_pc_self .., hholder', hval', ?_, ?_⟩
    · rw [entered_held, hheld', Nat.cast_succ, add_assoc]
    · rw [entered_held]
      simp only [entered, goto_depth, deepen, hdepth', sint]
      omega

end Alone

/-- On the booted kernel, the running thread may lock the mutex. -/
theorem acts_init {k : Kernel} (h : k.Booted R t) (sem : ℕ) :
    (init k sem).Acts t ∧ ∀ u, ¬k.OnList (.waiters sem) u := by
  have hw : ∀ u, ¬k.OnList (.waiters sem) u := fun u hu =>
    h.no_waiters sem u (h.shape.onList_iff.1 hu)
  have hid : (t : ℕ) < Kernel.inherentThreadNum := h.pool h.linked
  refine ⟨⟨h.curThread, ?_, hid.trans (by decide)⟩, hw⟩
  exact (h.shape.initSem hw 1).onlyReady_iff.2 fun _ hj => ⟨_, h.shape.rings.disjoint hj h.linked⟩

/-- The booted kernel, in which the second idle thread runs, and the first one is ready. -/
theorem exists_boot_idle : ∃ k R, Kernel.boot (fun _ => 0) Kernel.noThread (fun _ => 0) = some k ∧
    k.Booted R 1 ∧ ∃ p, .thread 0 ∈ R (.ready p) := by
  have hboot : (Kernel.boot (fun _ => 0) Kernel.noThread fun _ => 0).map (fun k =>
      (k.curThread, (k.thr (.thread 0)).state)) = some (.thread 1, .ready) := by decide +kernel
  obtain ⟨k, hboot, hfields⟩ := Option.map_eq_some_iff.1 hboot
  obtain ⟨hcur, hready⟩ := Prod.mk.inj hfields
  obtain ⟨R, c, hb⟩ := Kernel.booted_of_boot hboot
  obtain rfl : c = 1 := Node.thread.inj (hb.curThread.symm.trans hcur)
  refine ⟨k, R, hboot, hb, by_contra fun hno => ?_⟩
  exact nomatch hready.symm.trans (hb.stopped 0 fun p hp => hno ⟨p, hp⟩)

/-- An idle thread locks the mutex twice. Then the other one runs, and tries it in vain. -/
theorem excludes_after_lock :
    ∃ k m, Kernel.boot (fun _ => 0) Kernel.noThread (fun _ => 0) = some k ∧
      Run step MutexOk (init k 0) m ∧ m.kernel.curThread = .thread 0 ∧ m.held 1 = 2 ∧ m.held 0 = 0 ∧
        m.Excludes := by
  obtain ⟨k, R, hboot, hb, p, hp⟩ := exists_boot_idle
  obtain ⟨hacts, hw⟩ := acts_init hb 0
  have hG : ∀ {m u}, Acts m u → MutexOk m .step := fun {_ u} hu => ⟨u, hu⟩
  have hone : (0 : Tid) ≠ 1 := by decide
  have hfirst := hacts.run_first hG (free_init hb.shape hw) rfl ⟨1, hacts, by simp [held, init]⟩
  obtain ⟨m₁, hm₁⟩ : ∃ m₁, ((init k 0).taken.setHolder 1).entered 1 = m₁ := ⟨_, rfl⟩
  have hlocked : Run step MutexOk (init k 0) m₁ := hm₁ ▸ Acts.run_entered hG hacts hfirst
  have hacts₁ : m₁.Acts 1 := hm₁ ▸ hacts
  have hheld₁ : m₁.held 1 = 1 ∧ m₁.held 0 = 0 := by
    rw [← hm₁, entered_held, entered_held_of_ne _ hone]
    exact ⟨rfl, rfl⟩
  have hval₁ : m₁.value = 0 := by
    rw [← hm₁]
    refine (Kernel.decVal_val (init k 0).kernel 0).trans ?_
    rw [show (init k 0).kernel.val 0 = 1 from (free_init hb.shape hw).value]
    decide
  -- The second lock, and the switch.
  obtain ⟨m₂, hm₂⟩ : ∃ m₂, ({ m₁.entered 1 with
      kernel := (m₁.entered 1).kernel.switch 0 fun _ => .ready } : Mutex) = m₂ := ⟨_, rfl⟩
  have hswitched : Run step MutexOk m₁ m₂ := by
    refine (hacts₁.run_relock hG (hm₁ ▸ goto_pc_self ..) ⟨1,
      hacts₁, by rw [hheld₁.1]; decide⟩ (hm₁ ▸ rfl)
      (by omega)).tail (i := .switch 0 fun _ => .ready) trivial ?_
    exact congrArg some hm₂
  have hheld₂ : m₂.held 1 = 2 ∧ m₂.held 0 = 0 := by
    rw [← hm₂]
    exact ⟨(entered_held m₁ 1).trans (by rw [hheld₁.1]; rfl),
      (entered_held_of_ne m₁ hone).trans hheld₁.2⟩
  have hacts₂ : m₂.Acts 0 := by
    have honly : (init k 0).kernel.OnlyReady 0 :=
      (hb.shape.initSem hw 1).onlyReady_iff.2 fun _ hj =>
      ⟨_, hb.shape.rings.disjoint hj hp⟩
    rw [← hm₂, ← hm₁]
    exact ⟨rfl, honly, by decide⟩
  have htried : Run step MutexOk m₂ (m₂.goto 0 .idle) := by
    refine hacts₂.run_trylock hG ?_ ⟨0, hacts₂, by rw [hheld₂.2]; decide⟩ ?_ (hm₂ ▸ hval₁.le)
    · rw [← hm₂, ← hm₁]
      exact (goto_pc_of_ne _ _ .idle hone).trans (goto_pc_of_ne _ _ .idle hone)
    · rw [← hm₂, ← hm₁]
      exact Nat.one_ne_zero
  have hrun := (hlocked.trans hswitched).trans htried
  exact ⟨k, _, hboot, hrun, hacts₂.1, hheld₂.1, hheld₂.2, excludes_of_run hb.shape hw hrun⟩

/-- Between the accesses of `lock` to `_holder` and `_depth` there is a holder at depth zero; and at
    the call to `lock` number `2^31` of the holder, the depth overflows. -/
theorem not_excludes :
    ∃ k t, Kernel.boot (fun _ => 0) Kernel.noThread (fun _ => 0) = some k ∧
      (∃ m, Run step Calls (init k 0) m ∧ m.pc t = .incLoad ∧ (∀ u, u ≠ t → m.pc u = .idle) ∧
        m.holder ≠ invalid ∧ m.depth = 0) ∧
      ∃ m, Run step Calls (init k 0) m ∧ m.held t = 2 ^ 31 ∧ m.depth = -2 ^ 31 := by
  obtain ⟨k, R, t, hboot, hb⟩ := Kernel.exists_boot (fun _ => 0) Kernel.noThread fun _ => 0
  obtain ⟨hacts, hw⟩ := acts_init hb 0
  have hstep : ∀ {m u}, Acts m u → Calls m .step := fun {_ u} hu => ⟨u, hu⟩
  have hfirst := hacts.run_first (G := Calls) hstep (free_init hb.shape hw) rfl ⟨t, hacts⟩
  have hrun : Run step Calls (init k 0) (((init k 0).taken.setHolder t).entered t) :=
    Acts.run_entered hstep hacts hfirst
  refine ⟨k, t, hboot, ⟨_, hfirst, goto_pc_self .., fun u hu => goto_pc_of_ne _ _ _ hu,
    hacts.2.2.ne, rfl⟩, ?_⟩
  have hheld : (((init k 0).taken.setHolder t).entered t).held t = 1 := by
    rw [entered_held]
    rfl
  have hval : (((init k 0).taken.setHolder t).entered t).value < 2 := by
    refine (Kernel.decVal_val (init k 0).kernel 0).trans_lt ?_
    rw [show (init k 0).kernel.val 0 = 1 from (free_init hb.shape hw).value]
    decide
  obtain ⟨m, hdeep, -, -, -, -, hm, hdepth⟩ := Acts.run_deep hstep
    (m := ((init k 0).taken.setHolder t).entered t) hacts (goto_pc_self ..) (fun hu => ⟨t, hu⟩) rfl
    hval (by rw [hheld]; rfl) (2 ^ 31 - 1)
  refine ⟨m, hrun.trans hdeep, ?_, ?_⟩
  · rw [hm, hheld]
    rfl
  · rw [hdepth, hm, hheld]
    rfl

end Mutex

end DemoOs
