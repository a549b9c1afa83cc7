import DemoOs.Ipc.Mutex
import DemoOs.Tty.Steps

/-!
# Interrupts in a terminal

The threads of `Tty.Steps`, with the mutex of the terminal by its own steps (`Ipc.Mutex`), and the
handlers `iSendDataToTty` and `iTransmitDataOfTty`, which come in between any two of them and run to
their end as the thread they interrupt: a handler that has to wait has no end (`TtySystem.step`).

A handler is in the critical section by right if the mutex was free when it came
(`Inv.free_of_lockAll`). But the mutex knows its holder by the thread, so that it lets in a handler
that has interrupted the holder. As long as this does not happen (`Clear`), no handler is in the
section together with a thread (`not_intruded`); otherwise there is one as soon as it does
(`intruded_in_section`).
-/

namespace DemoOs

namespace Mutex

variable (m : Mutex) (t : Tid)

/-- `lock` of the thread `t`, with nothing in between. There is none if it has to wait. -/
def lockAll : Option Mutex :=
  if m.value < 2 then
    if (t : ℕ) ≠ m.holder then
      match m.kernel.lockSection m.sem with
      | some (kernel, false) =>
        if m.holder = invalid ∧
          m.depth = 0 then some (deepen { m with kernel, holder := t } t) else none
      | _ => none
    else some (m.deepen t)
  else none

/-- `--_depth`. -/
def shallow : Mutex :=
  { m with
    depth := sint (m.depth - 1)
    releases := Function.update m.releases t (m.releases t + 1) }

/-- `unlock` of the thread `t`, with nothing in between. -/
def unlockAll : Option Mutex :=
  if m.value < 1 ∧ (t : ℕ) = m.holder ∧ m.depth > 0 then
    if (m.shallow t).depth = 0 then
      (m.kernel.unlock m.sem).map fun kernel => { m.shallow t with kernel, holder := invalid }
    else some (m.shallow t)
  else none

end Mutex

namespace Mutex

variable {m m' : Mutex} {t u o : Tid} {inside : Bool}

/-! ## What a step does to the other threads -/

theorem exec_frame (h : m.exec t = some m') (hu : u ≠ t) :
    m'.pc u = m.pc u ∧ m'.held u = m.held u := by
  unfold Mutex.exec at h
  cases hpc : m.pc t with
  | idle =>
    rw [hpc] at h
    cases h
  | semLock | semUnlock =>
    rw [hpc] at h
    obtain ⟨x, -, h⟩ := Option.bind_eq_some_iff.1 h
    exact Option.some.inj h ▸ ⟨goto_pc_of_ne _ _ _ hu, rfl⟩
  | incStore | decStore =>
    rw [hpc] at h
    obtain rfl := Option.some.inj h
    refine ⟨goto_pc_of_ne _ _ _ hu, ?_⟩
    rw [goto_held]
    simp only [held, Function.update_of_ne hu]
  | _ =>
    rw [hpc] at h
    exact Option.some.inj h ▸ ⟨goto_pc_of_ne _ _ _ hu, rfl⟩

/-! ## Threads that do not enter twice -/

/-- The thread is in the function of the mutex that agrees with where it is in the program: it holds
    the mutex once from the end of `lock` to the beginning of `unlock`. -/
def Placed (m : Mutex) (t : Tid) (inside : Bool) : Prop :=
  match m.pc t with
  | .idle => m.held t = if inside then 1 else 0
  | .lockValue | .lockTest | .semLock | .holderFree | .depthZero | .setHolder | .incLoad
  | .incStore _ => inside = true ∧ m.held t = 0
  | .unlockValue | .unlockHolder | .unlockDepth | .decLoad | .decStore _ =>
    inside = false ∧ m.held t = 1
  | .clearHolder | .semUnlock => inside = false ∧ m.held t = 0
  | .tryValue | .tryTest | .semTrylock => False

theorem Placed.congr (h : m.Placed t inside) (hpc : m'.pc t = m.pc t)
    (hheld : m'.held t = m.held t) :
    m'.Placed t inside := by
  rw [Placed, hpc, hheld]
  exact h

/-- A step of the thread within `lock` or `unlock`. -/
theorem Placed.exec (h : m.Placed t inside) (hinv : m.Inv) (hexec : m.exec t = some m') :
    m'.Placed t inside := by
  unfold Mutex.exec at hexec
  unfold Placed at h
  cases hpc : m.pc t with
  | idle =>
    rw [hpc] at hexec
    cases hexec
  | tryValue | tryTest | semTrylock =>
    rw [hpc] at h
    exact h.elim
  | lockTest =>
    rw [hpc] at h hexec
    obtain rfl := Option.some.inj hexec
    rw [Placed, goto_pc_self]
    split_ifs <;> exact h
  | semLock =>
    rw [hpc] at h hexec
    obtain ⟨⟨k, blocked⟩, -, hexec⟩ := Option.bind_eq_some_iff.1 hexec
    obtain rfl := Option.some.inj hexec
    rw [Placed, goto_pc_self]
    cases blocked <;> exact h
  | incStore d =>
    rw [hpc] at h hexec
    obtain rfl := Option.some.inj hexec
    obtain ⟨rfl, hheld⟩ := h
    rw [Placed, goto_pc_self, goto_held]
    simp only [held, Function.update_self, if_true] at hheld ⊢
    omega
  | decStore d =>
    rw [hpc] at h hexec
    obtain rfl := Option.some.inj hexec
    obtain ⟨rfl, hheld⟩ := h
    -- The value loaded is the depth, which is that of the only time the thread holds the mutex.
    have hzero : sint (d - 1) = 0 := by
      rcases hinv.owner with hfree | ⟨o, ho⟩
      · exact absurd (hfree.outside t).1 (by omega)
      · have hot : t = o := by
          by_contra hto
          exact absurd (ho.outside t hto).1 (by omega)
        have howns := ho.owns
        subst hot
        simp only [Owns, hpc] at howns
        rw [sint_eq (by omega) (by omega)]
        omega
    rw [if_pos hzero, Placed, goto_pc_self, goto_held]
    simp only [held, Function.update_self] at hheld ⊢
    exact ⟨trivial, by omega⟩
  | semUnlock =>
    rw [hpc] at h hexec
    obtain ⟨k, -, hexec⟩ := Option.bind_eq_some_iff.1 hexec
    obtain rfl := Option.some.inj hexec
    obtain ⟨rfl, hheld⟩ := h
    rw [Placed, goto_pc_self]
    exact hheld
  | _ =>
    rw [hpc] at h hexec
    obtain rfl := Option.some.inj hexec
    rw [Placed, goto_pc_self]
    exact h

/-! ## Handlers -/

/-- A handler that gets into the critical section without being the holder finds the mutex free. -/
theorem Inv.free_of_lockAll (h : m.Inv) (hacts : m.Acts t) (hne : (t : ℕ) ≠ m.holder)
    (hlock : m.lockAll t = some m') : m.Free := by
  rcases h.owner with hfree | ⟨o, ho⟩
  · exact hfree
  · -- The semaphore has no permit, so that the handler waits.
    obtain ⟨R, hs⟩ := h.shape
    have hblocks : m.kernel.Blocks m.sem := by
      have := ho.value
      have := m.kernel.ncard_waiters_le m.sem
      simp only [Mutex.value, Mutex.waiters] at *
      rw [Kernel.Blocks, sint_eq (by omega) (by omega)]
      omega
    rw [lockAll, if_pos (ho.value_le.trans_lt (by decide)), if_pos hne] at hlock
    cases hsection : m.kernel.lockSection m.sem with
    | none =>
      rw [hsection] at hlock
      cases hlock
    | some x =>
      obtain ⟨k, blocked⟩ := x
      obtain ⟨rfl, -⟩ := hs.lockSection_blocks ⟨t, hacts.1, hacts.2.1⟩ hblocks hsection
      rw [hsection] at hlock
      cases hlock

/-- It leaves it so, and with all threads where they have been. -/
theorem Free.lockAll_unlockAll (h : m.Free) (hs : ∃ R, m.kernel.Shape R) (hid : (t : ℕ) < invalid) :
    ∃ m₁ m₂, m.lockAll t = some m₁ ∧ m₁.unlockAll t = some m₂ ∧ m₂.Free ∧ m₂.Inv ∧ m₂.pc = m.pc ∧
      (∀ u, m₂.held u = m.held u) ∧ ∀ u, m.Acts u → m₂.Acts u := by
  obtain ⟨R, hs⟩ := hs
  have hval : m.kernel.val m.sem = 1 := h.value
  have hne : (t : ℕ) ≠ m.holder := by
    rw [h.holder]
    exact hid.ne
  -- The permit is there, and the lock is got at once.
  have hsection : m.kernel.lockSection m.sem = some (m.kernel.decVal m.sem, false) :=
    Kernel.lockSection_of_nonneg (by rw [hval]; decide)
  have hlock : m.lockAll t = some ((m.taken.setHolder t).deepen t) := by
    rw [lockAll, if_pos (h.value.trans_lt (by decide)), if_pos hne, hsection]
    exact if_pos ⟨h.holder, h.depth⟩
  have hs' : m.taken.kernel.Shape R := hs.congr rfl rfl fun _ => rfl
  -- Nobody waits, so that the unlock gives the permit back and wakes no thread.
  have hno : ∀ u, ¬m.taken.kernel.OnList (.waiters m.sem) u :=
    Set.eq_empty_iff_forall_notMem.1 h.waiters
  have hunlock := hs'.unlock_of_no_waiters hno
  have hzero : m.taken.kernel.val m.sem = 0 := by
    rw [taken, Kernel.decVal_val, hval]
    decide
  have hone : (m.taken.kernel.incVal m.sem).val m.sem = 1 := by
    rw [Kernel.incVal_val, hzero]
    decide
  have hdepth : ((m.taken.setHolder t).deepen t).depth = 1 := by
    simp only [deepen, setHolder, taken, h.depth]
    decide
  have hdepth' : (((m.taken.setHolder t).deepen t).shallow t).depth = 0 := by
    simp only [shallow, hdepth]
    decide
  have hheld : ∀ u, (((m.taken.setHolder t).deepen t).shallow t).held u = m.held u := by
    intro u
    by_cases hu : u = t
    · subst hu
      simp only [shallow, deepen, setHolder, taken, held, Function.update_self]
      omega
    · simp only [shallow, deepen, setHolder, taken, held, Function.update_of_ne hu]
  have hfree : Free { ((m.taken.setHolder t).deepen t).shallow t with
      kernel := m.taken.kernel.incVal m.sem, holder := invalid } :=
    ⟨hone, h.waiters, rfl, hdepth', fun u => (h.outside u).congr (hheld u) rfl⟩
  refine ⟨_, _, hlock, ?_, hfree, ⟨⟨R, hs.congr rfl rfl fun _ => rfl⟩, .inl hfree⟩, rfl, hheld,
    fun _ hu => hu⟩
  rw [unlockAll, if_pos ⟨hzero.trans_lt (by decide), rfl, by rw [hdepth]; decide⟩, if_pos hdepth']
  exact congrArg (Option.map _) hunlock

end Mutex

/-- A terminal, its mutex, and the threads. -/
structure TtySystem (B : Type) where
  mutex : Mutex
  tty : Tty B
  code : Tid → TtyPc B
  /-- A handler has been in the critical section together with a thread. -/
  intruded : Prop

/-- The calls and steps of the current thread, and the interrupts. -/
inductive TtySystemOp (B : Type)
  /-- The thread is now the current one, and the states of all threads are as given. -/
  | switch (t : Tid) (states : Tid → State)
  | call (f : TtyCall B)
  | step
  | iSendDataToTty (inChar : UInt8)
  | iTransmitDataOfTty

namespace TtySystem

open Mutex

variable {B : Type} [CharBuffer B]

/-- The thread is behind its `_mutex.lock()` and before its `_mutex.unlock()`. -/
def InSection (s : TtySystem B) (t : Tid) : Prop :=
  (s.code t).inside = true ∧ s.mutex.pc t = .idle

/-- The thread goes to `c`. -/
def goto (s : TtySystem B) (t : Tid) (c : TtyPc B) : TtySystem B :=
  { s with code := Function.update s.code t c }

/-- A handler that has interrupted the thread `t`, from `m.lock()` on. It has no end if it waits for
    the mutex, or if it unlocks the mutex twice. -/
def handle (s : TtySystem B) (t : Tid) (body : Tty B → Option (Tty B)) : Option (TtySystem B) := do
  let mutex ← s.mutex.lockAll t
  let tty ← body s.tty
  let mutex ← mutex.unlockAll t
  some { s with mutex, tty, intruded := s.intruded ∨ ∃ u, s.InSection u }

/-- The next step of the thread `t`: within a function of the mutex, or of the terminal. -/
def stepOf (s : TtySystem B) (t : Tid) : Option (TtySystem B) :=
  if s.mutex.pc t ≠ .idle then (s.mutex.step .step).map fun mutex => { s with mutex }
  else
    match (s.code t).next s.tty with
    | some (.plain, tty, c) => some ({ s with tty }.goto t c)
    | some (.lock, tty, c) => (s.mutex.step .lock).map fun mutex => { s with mutex, tty }.goto t c
    | some (.unlock, tty, c) => (s.mutex.step .unlock).map fun mutex =>
        { s with mutex, tty }.goto t c
    | none => none

/-- A function is called by a thread that is in none of them. -/
def callOf (s : TtySystem B) (t : Tid) (f : TtyCall B) : Option (TtySystem B) :=
  match s.code t, s.mutex.pc t with
  | .out, .idle => some (s.goto t f.entry)
  | _, _ => none

/-- `KCommKernel::curThread()`. -/
def curThread (s : TtySystem B) : Option Tid :=
  match s.mutex.kernel.curThread with
  | .thread t => some t
  | .hdr _ => none

def step (s : TtySystem B) : TtySystemOp B → Option (TtySystem B)
  | .switch t states => (s.mutex.step (.switch t states)).map fun mutex => { s with mutex }
  | .call f => s.curThread.bind fun t => s.callOf t f
  | .step => s.curThread.bind s.stepOf
  | .iSendDataToTty inChar =>
    if s.tty.protoHookFunc.any fun hook => hook s.tty.protoArg = 0 then some s
    else s.curThread.bind fun t => s.handle t fun tty => (tty.iSendDataToTty inChar).map Prod.snd
  | .iTransmitDataOfTty =>
    s.curThread.bind fun t => s.handle t fun tty => some tty.iTransmitDataOfTty.2.2

/-- Only threads that run take steps, and only they are interrupted. -/
def Calls (s : TtySystem B) : TtySystemOp B → Prop
  | .switch _ _ => True
  | _ => ∃ t, s.mutex.Acts t

/-- Besides, no holder of the mutex is interrupted. -/
def Clear (s : TtySystem B) : TtySystemOp B → Prop
  | .switch _ _ => True
  | .call _ | .step => ∃ t, s.mutex.Acts t
  | .iSendDataToTty _ | .iTransmitDataOfTty => ∃ t, s.mutex.Acts t ∧ (t : ℕ) ≠ s.mutex.holder

/-- The threads have called none of the functions yet. -/
def start (k : Kernel) (sem : ℕ) (tty : Tty B) : TtySystem B where
  mutex := .init k sem
  tty := tty
  code := fun _ => .out
  intruded := False

/-! ## Runs with handlers that come in by right -/

variable {s s' : TtySystem B} {t : Tid}

/-- The mutex is right, the threads are in it where their code says, and no handler has intruded. -/
structure Inv (s : TtySystem B) : Prop where
  mutex : s.mutex.Inv
  placed : ∀ t, s.mutex.Placed t (s.code t).inside
  intruded : ¬ s.intruded

omit [CharBuffer B] in
/-- No thread is in the section while the mutex is free. -/
theorem Inv.not_inSection (h : s.Inv) (hfree : s.mutex.Free) (u : Tid) : ¬ s.InSection u := by
  rintro ⟨hinside, hidle⟩
  have hplaced := h.placed u
  rw [Placed, hidle, hinside] at hplaced
  have hnone := (hfree.outside u).1
  simp only [if_true] at hplaced
  omega

omit [CharBuffer B] in
/-- A handler whose thread is not the holder. -/
theorem Inv.handle {body : Tty B → Option (Tty B)} (h : s.Inv) (hacts : s.mutex.Acts t)
    (hne : (t : ℕ) ≠ s.mutex.holder) (hhandle : s.handle t body = some s') : s'.Inv := by
  obtain ⟨m₁, hlock, hhandle⟩ := Option.bind_eq_some_iff.1 hhandle
  obtain ⟨tty, -, hhandle⟩ := Option.bind_eq_some_iff.1 hhandle
  obtain ⟨m₂, hunlock, hhandle⟩ := Option.bind_eq_some_iff.1 hhandle
  obtain rfl := Option.some.inj hhandle
  have hfree := h.mutex.free_of_lockAll hacts hne hlock
  obtain ⟨m₁', m₂', hlock', hunlock', -, hinv, hpc, hheld, -⟩ :=
    hfree.lockAll_unlockAll h.mutex.shape hacts.2.2
  obtain rfl := Option.some.inj (hlock'.symm.trans hlock)
  obtain rfl := Option.some.inj (hunlock'.symm.trans hunlock)
  refine ⟨hinv, fun u => (h.placed u).congr (congrFun hpc u) (hheld u), ?_⟩
  rintro (hbefore | ⟨u, hu⟩)
  · exact h.intruded hbefore
  · exact h.not_inSection hfree u hu

omit [CharBuffer B] in
/-- The thread goes to `c`, and perhaps into a function of the mutex. -/
theorem Inv.goto {m : Mutex} {tty : Tty B} {c : TtyPc B} (h : s.Inv) (hm : m.Inv)
    (hself : m.Placed t c.inside)
    (hframe : ∀ u, u ≠ t → m.pc u = s.mutex.pc u ∧ m.held u = s.mutex.held u) :
    Inv ({ s with mutex := m, tty }.goto t c) := by
  refine ⟨hm, fun u => ?_, h.intruded⟩
  by_cases hu : u = t
  · subst hu
    simp only [TtySystem.goto, Function.update_self]
    exact hself
  · simp only [TtySystem.goto, Function.update_of_ne hu]
    exact (h.placed u).congr (hframe u hu).1 (hframe u hu).2

omit [CharBuffer B] in
/-- A step of a thread within a function of the mutex. -/
theorem Inv.stepMutex {m : Mutex} (h : s.Inv) (hacts : s.mutex.Acts t)
    (hstep : s.mutex.step .step = some m) : Inv { s with mutex := m } := by
  have hok : s.mutex.MutexOk .step := ⟨t, hacts⟩
  refine ⟨h.mutex.step hok hstep, fun u => ?_, h.intruded⟩
  simp only [Mutex.step, hacts.1] at hstep
  split_ifs at hstep
  by_cases hu : u = t
  · subst hu
    exact (h.placed u).exec h.mutex hstep
  · obtain ⟨hpc, hheld⟩ := exec_frame hstep hu
    exact (h.placed u).congr hpc hheld

omit [CharBuffer B] in
theorem curThread_eq (hacts : s.mutex.Acts t) : s.curThread = some t := by
  rw [curThread, hacts.1]

omit [CharBuffer B] in
/-- A thread that is in no function of the mutex calls one, and goes to `c`. -/
theorem Inv.callMutex {op : MutexOp} {p : Pc} {m : Mutex} {tty : Tty B} {c : TtyPc B} (h : s.Inv)
    (hcur : s.mutex.kernel.curThread = .thread t) (hidle : s.mutex.pc t = .idle)
    (hm : s.mutex.step op = some m) (hcall : s.mutex.step op = s.mutex.call p)
    (hok : s.mutex.MutexOk op) (hplaced : (s.mutex.goto t p).Placed t c.inside) :
    Inv ({ s with mutex := m, tty }.goto t c) := by
  have heq : m = s.mutex.goto t p := by
    have hm' := hcall.symm.trans hm
    simp only [Mutex.call, hcur, hidle, if_true, Option.some.injEq] at hm'
    exact hm'.symm
  refine h.goto (h.mutex.step hok hm) (heq ▸ hplaced) fun u hu => ?_
  rw [heq]
  exact ⟨goto_pc_of_ne _ _ _ hu, rfl⟩

theorem Inv.stepOf (h : s.Inv) (hacts : s.mutex.Acts t) (hstep : s.stepOf t = some s') :
    s'.Inv := by
  rw [TtySystem.stepOf] at hstep
  -- Inside a call of the mutex it is the mutex that steps.
  split_ifs at hstep with hpc
  · obtain ⟨m, hm, rfl⟩ := Option.map_eq_some_iff.1 hstep
    exact h.stepMutex hacts hm
  have hidle : s.mutex.pc t = .idle := not_not.1 hpc
  have hplaced := h.placed t
  have hheld : s.mutex.held t = if (s.code t).inside then 1 else 0 := by
    rw [Placed, hidle] at hplaced
    exact hplaced
  cases hnext : (s.code t).next s.tty with
  | none =>
    rw [hnext] at hstep
    cases hstep
  | some x =>
    obtain ⟨l, tty, c⟩ := x
    have hinside := TtyPc.next_inside hnext
    rw [hnext] at hstep
    -- A step of the tty may call the mutex.
    cases l with
    | plain =>
      obtain rfl := Option.some.inj hstep
      exact h.goto h.mutex (hinside ▸ hplaced) fun _ _ => ⟨rfl, rfl⟩
    | lock =>
      obtain ⟨m, hm, rfl⟩ := Option.map_eq_some_iff.1 hstep
      rw [hinside.1] at hheld
      refine h.callMutex hacts.1 hidle hm rfl ⟨t, hacts, by rw [hheld]; decide⟩ ?_
      rw [Placed, goto_pc_self]
      exact ⟨hinside.2, hheld⟩
    | unlock =>
      obtain ⟨m, hm, rfl⟩ := Option.map_eq_some_iff.1 hstep
      rw [hinside.1] at hheld
      refine h.callMutex hacts.1 hidle hm rfl ⟨t, hacts, by rw [hheld]; decide⟩ ?_
      rw [Placed, goto_pc_self]
      exact ⟨hinside.2, hheld⟩

omit [CharBuffer B] in
theorem Inv.callOf {f : TtyCall B} (h : s.Inv) (hstep : s.callOf t f = some s') : s'.Inv := by
  rw [TtySystem.callOf] at hstep
  split at hstep
  · next hout _ =>
    obtain rfl := Option.some.inj hstep
    have hentry : f.entry.inside = (s.code t).inside := by
      rw [hout]
      cases f <;> rfl
    exact h.goto h.mutex (hentry ▸ h.placed t) fun _ _ => ⟨rfl, rfl⟩
  · cases hstep

theorem Inv.step {op : TtySystemOp B} (h : s.Inv) (hclear : s.Clear op)
    (hstep : s.step op = some s') : s'.Inv := by
  cases op with
  | switch t states =>
    rw [TtySystem.step] at hstep
    obtain ⟨m, hm, rfl⟩ := Option.map_eq_some_iff.1 hstep
    obtain rfl := Option.some.inj hm
    exact ⟨h.mutex.switch t states, h.placed, h.intruded⟩
  | call f =>
    rw [TtySystem.step] at hstep
    obtain ⟨t, -, hcall⟩ := Option.bind_eq_some_iff.1 hstep
    exact h.callOf hcall
  | step =>
    obtain ⟨t, hacts⟩ := hclear
    rw [TtySystem.step, curThread_eq hacts] at hstep
    exact h.stepOf hacts hstep
  | iSendDataToTty c =>
    obtain ⟨t, hacts, hne⟩ := hclear
    rw [TtySystem.step, curThread_eq hacts, Option.bind_some] at hstep
    split_ifs at hstep
    · exact Option.some.inj hstep ▸ h
    · exact h.handle hacts hne hstep
  | iTransmitDataOfTty =>
    obtain ⟨t, hacts, hne⟩ := hclear
    rw [TtySystem.step, curThread_eq hacts, Option.bind_some] at hstep
    exact h.handle hacts hne hstep

omit [CharBuffer B] in
theorem inv_start {k : Kernel} {R : Hdr → Cycle Node} {sem : ℕ} {tty : Tty B} (hs : k.Shape R)
    (hw : ∀ t, ¬ k.OnList (.waiters sem) t) : (start k sem tty).Inv :=
  ⟨⟨⟨R, hs.initSem hw 1⟩, .inl (free_init hs hw)⟩, fun _ => sub_self _, not_false⟩

/-- As long as no handler interrupts the holder of the mutex, no handler is in the critical section
    together with a thread. -/
theorem not_intruded {k : Kernel} {R : Hdr → Cycle Node} {sem : ℕ} {tty : Tty B} (hs : k.Shape R)
    (hw : ∀ t, ¬ k.OnList (.waiters sem) t) (hrun : Run step Clear (start k sem tty) s) :
    ¬ s.intruded :=
  (hrun.invariant (fun h hclear hstep => h.step hclear hstep) (inv_start hs hw)).intruded

omit [CharBuffer B] in
theorem handle_eq {m₁ m₂ : Mutex} {tty : Tty B} {body : Tty B → Option (Tty B)}
    (hlock : s.mutex.lockAll t = some m₁) (hbody : body s.tty = some tty)
    (hunlock : m₁.unlockAll t = some m₂) : s.handle t body =
      some { s with mutex := m₂, tty, intruded := s.intruded ∨ ∃ u, s.InSection u } := by
  simp only [handle, hlock, hbody, hunlock, Option.bind_eq_bind, Option.bind_some]

/-! ## Runs with handlers that interrupt the holder -/

omit [CharBuffer B] in
theorem Clear.calls {op : TtySystemOp B} (h : s.Clear op) : s.Calls op := by
  cases op with
  | switch => trivial
  | call | step => exact h
  | iSendDataToTty | iTransmitDataOfTty =>
    obtain ⟨t, hacts, -⟩ := h
    exact ⟨t, hacts⟩

omit [CharBuffer B] in
/-- The holder lets in a handler that has interrupted it. -/
theorem Inv.exists_handle (h : s.Inv) (hin : s.InSection t) (f : Tty B → Tty B) :
    ∃ s', s.handle t (fun tty => some (f tty)) = some s' ∧ s'.intruded := by
  obtain ⟨hinside, hidle⟩ := hin
  have hheld : s.mutex.held t = 1 := by
    have hplaced := h.placed t
    rw [Placed, hidle, hinside] at hplaced
    exact hplaced
  have hexcludes := h.mutex.excludes
  obtain ⟨hholder, hdepth⟩ := hexcludes.holder_eq t (by omega)
  have hvalue : s.mutex.value < 1 := by
    rcases h.mutex.owner with hfree | ⟨o, ho⟩
    · exact absurd (hfree.outside t).1 (by omega)
    · exact ho.value_le.trans_lt (by decide)
  have hlock : s.mutex.lockAll t = some (s.mutex.deepen t) := by
    rw [lockAll, if_pos (by omega), if_neg (not_not.2 hholder.symm)]
  have htwo : (s.mutex.deepen t).depth = 2 := by
    simp only [deepen, hdepth, hheld]
    decide
  have hunlock : (s.mutex.deepen t).unlockAll t = some ((s.mutex.deepen t).shallow t) := by
    rw [unlockAll, if_pos ⟨hvalue, hholder.symm, by rw [htwo]; decide⟩, if_neg]
    simp only [shallow, htwo]
    decide
  exact ⟨_, handle_eq hlock rfl hunlock, .inr ⟨t, hinside, hidle⟩⟩

/-- A step within a function of the mutex. -/
theorem step_mutex {m : Mutex} (hacts : s.mutex.Acts t) (hpc : s.mutex.pc t ≠ .idle)
    (hstep : s.mutex.step .step = some m) : s.step .step = some { s with mutex := m } := by
  rw [step, curThread_eq hacts, Option.bind_some, stepOf, if_pos hpc, hstep]
  rfl

/-- The steps of the mutex from a call of `lock` on are steps of the system. -/
theorem run_lock {m : Mutex} {tty : Tty B} {c : TtyPc B} (hacts : s.mutex.Acts t)
    (hidle : s.mutex.pc t = .idle) (hnext : (s.code t).next s.tty = some (.lock, tty, c))
    (hrun : Run Mutex.step (fun m op => (op = .lock ∧ m = s.mutex) ∨ (op = .step ∧ ∃ u, m.Acts u))
      s.mutex m) :
    m = s.mutex ∨ Run step Clear s ({ s with mutex := m, tty }.goto t c) := by
  induction hrun with
  | refl => exact .inl rfl
  | @tail m m' op _ hop hstep ih =>
    rcases hop with ⟨rfl, rfl⟩ | ⟨rfl, u, hu⟩
    · -- The call.
      refine .inr (.tail (i := .step) .refl ⟨t, hacts⟩ ?_)
      rw [step, curThread_eq hacts, Option.bind_some, stepOf, if_neg (not_not.2 hidle), hnext]
      simp only [hstep, Option.map_some]
    · have hpc : m.pc u ≠ .idle := by
        intro hnone
        simp only [Mutex.step, hu.1, Mutex.exec, hnone] at hstep
        split_ifs at hstep
      rcases ih with rfl | hrun
      · -- Nothing has been called yet.
        have htu := Option.some.inj ((curThread_eq hacts).symm.trans (curThread_eq hu))
        exact absurd (htu ▸ hidle) hpc
      · exact .inr (hrun.tail (i := .step) ⟨u, hu⟩
          (step_mutex (s := { s with mutex := m, tty }.goto t c) hu hpc hstep))

/-- A thread that finds the mutex free enters the section, to flush the write buffer. -/
theorem exists_inSection (hacts : s.mutex.Acts t) (hfree : s.mutex.Free)
    (hidle : s.mutex.pc t = .idle)
    (hout : s.code t = .out) : ∃ s', Run step Clear s s' ∧ s'.InSection t ∧ s'.mutex.Acts t := by
  have hcall : Run step Clear s (s.goto t .flushWriteBuffer) := by
    refine .tail (i := .call .flushWriteBuffer) .refl ⟨t, hacts⟩ ?_
    rw [step, curThread_eq hacts, Option.bind_some, callOf, hout, hidle]
    rfl
  have hlocked : Run Mutex.step
      (fun m op => (op = .lock ∧ m = s.mutex) ∨ (op = .step ∧ ∃ u, m.Acts u)) s.mutex
      ((s.mutex.taken.setHolder t).entered t) :=
    Acts.run_entered (fun hu => .inr ⟨rfl, _, hu⟩) hacts
      (hacts.run_first (fun hu => .inr ⟨rfl, _, hu⟩) hfree hidle (.inl ⟨rfl, rfl⟩))
  have hnext : ((s.goto t .flushWriteBuffer).code t).next s.tty =
      some (.lock, s.tty, .flushWriteBegin) := by
    simp only [goto, Function.update_self]
    rfl
  rcases run_lock (s := s.goto t .flushWriteBuffer) hacts hidle hnext hlocked with hsame | hrun
  · have hheld : s.mutex.held t = s.mutex.held t + 1 :=
      (congrArg (Mutex.held · t) hsame).symm.trans (entered_held ..)
    omega
  · exact ⟨_, hcall.trans hrun,
      ⟨by simp only [goto, Function.update_self]; rfl, goto_pc_self ..⟩, hacts⟩

omit [CharBuffer B] in
/-- A handler that finds the mutex free is not stopped, and leaves it free. -/
theorem exists_handle_of_free (hfree : s.mutex.Free) (hs : ∃ R, s.mutex.kernel.Shape R)
    (hid : (t : ℕ) < invalid) (f : Tty B → Tty B) :
    ∃ s', s.handle t (fun tty => some (f tty)) = some s' ∧ s'.tty = f s.tty ∧ s'.mutex.Free ∧
      s'.mutex.pc = s.mutex.pc ∧ s'.code = s.code ∧ ∀ u, s.mutex.Acts u → s'.mutex.Acts u := by
  obtain ⟨m₁, m₂, hlock, hunlock, hfree', -, hpc, -, hacts⟩ := hfree.lockAll_unlockAll hs hid
  exact ⟨_, handle_eq hlock rfl hunlock, rfl, hfree', hpc, rfl, hacts⟩

/-- A terminal in which nothing has happened. -/
def unused : Tty (SRingBuffer UInt8) := Tty.blank ⟨0, 0, 64, fun _ => 0⟩

/-- On the booted kernel, a handler comes in while nobody is in the section, and then a thread
    enters it. -/
theorem not_intruded_free : ∃ (k : Kernel) (s s' : TtySystem (SRingBuffer UInt8)) (t : Tid),
    Kernel.boot (fun _ => 0) Kernel.noThread (fun _ => 0) = some k ∧
      (start k 0 unused).step .iTransmitDataOfTty = some s ∧ Run step Clear s s' ∧ s'.InSection t ∧
        ¬ s'.intruded := by
  obtain ⟨k, R, t, hboot, hb⟩ := Kernel.exists_boot (fun _ => 0) Kernel.noThread fun _ => 0
  obtain ⟨hacts, hw⟩ := acts_init hb 0
  obtain ⟨s, hhandle, -, hfree, hpc, hcode, hacts'⟩ :=
    exists_handle_of_free (s := start k 0 unused) (t := t)
    (free_init hb.shape hw) ⟨R, hb.shape.initSem hw 1⟩ hacts.2.2 fun tty =>
      tty.iTransmitDataOfTty.2.2
  have hstep : (start k 0 unused).step .iTransmitDataOfTty = some s := by
    rw [step, curThread_eq hacts, Option.bind_some, hhandle]
  have hclear : (start k 0 unused).Clear .iTransmitDataOfTty := ⟨t, hacts, hacts.2.2.ne⟩
  obtain ⟨s', hrun, hin, -⟩ := exists_inSection (hacts' t hacts) hfree (hpc ▸ rfl) (hcode ▸ rfl)
  exact ⟨k, s, s', t, hboot, hstep, hrun, hin,
    not_intruded hb.shape hw ((Run.refl.tail hclear hstep).trans hrun)⟩

/-- A handler interrupts a thread that flushes the write buffer. -/
theorem intruded_in_section : ∃ (k : Kernel) (s : TtySystem (SRingBuffer UInt8)),
    Kernel.boot (fun _ => 0) Kernel.noThread (fun _ => 0) = some k ∧
      Run step Calls (start k 0 unused) s ∧ s.intruded := by
  obtain ⟨k, R, t, hboot, hb⟩ := Kernel.exists_boot (fun _ => 0) Kernel.noThread fun _ => 0
  obtain ⟨hacts, hw⟩ := acts_init hb 0
  -- The thread is in the section, and is interrupted.
  obtain ⟨s₁, hin, hsection, hacts₁⟩ :=
    exists_inSection (s := start k 0 unused) hacts (free_init hb.shape hw) rfl rfl
  have hinv := hin.invariant (fun h hclear hstep => h.step hclear hstep) (inv_start hb.shape hw)
  obtain ⟨s, hhandle, hintruded⟩ :=
    hinv.exists_handle hsection fun tty => tty.iTransmitDataOfTty.2.2
  refine ⟨k, s, hboot,
    (hin.mono fun _ _ => Clear.calls).tail (i := .iTransmitDataOfTty) ⟨t, hacts₁⟩ ?_,
    hintruded⟩
  rw [step, curThread_eq hacts₁, Option.bind_some, hhandle]

end TtySystem

end DemoOs
