import Mathlib.Data.Set.Card
import DemoOs.System
import DemoOs.Task.Boot

/-!
# The permits of a semaphore

The sections of `semaphore.cpp` under the spinlock, taken by any number of threads in any order,
with the scheduler changing the current thread and the states of the threads in between (`SemOp`). A
thread on a waiter list takes no step (`SemOk`).

For a semaphore of initial value `v`, the value is `v`, plus the calls to `unlock`, minus the
permits acquired, minus the number of waiters; no more permits are acquired than `v` plus the calls
to `unlock`, and none is available while there are waiters (`balanced_of_run`). This is as long as
`v` plus the calls to `unlock` fit into the 32 bits of the value.
-/

namespace DemoOs

/-- The sections of the semaphores, and the switch to a thread. -/
inductive SemOp
  /-- The thread is now the current one, and the states of all threads are as given. -/
  | switch (t : Tid) (states : Tid → State)
  | lock (τ : ℕ)
  | trylock (τ : ℕ)
  | unlock (τ : ℕ)

/-- The kernel, with the number of calls to `unlock` of a semaphore, and of the permits acquired. -/
structure Ledger where
  kernel : Kernel
  unlocks : ℕ
  acquired : ℕ

namespace Kernel

/-- The threads waiting for the semaphore. -/
def waiters (k : Kernel) (σ : ℕ) : Set Tid := {t | k.OnList (.waiters σ) t}

/-- The scheduler switches to a thread, and may change the states of all threads. -/
def switch (k : Kernel) (t : Tid) (states : Tid → State) : Kernel :=
  { k with
    curThread := .thread t
    thr := fun x => match x with
      | .thread u => { k.thr x with state := states u }
      | .hdr _ => k.thr x }

/-- The current thread is a thread on no list other than a ready ring. -/
def Runs (k : Kernel) : Prop := ∃ c, k.curThread = .thread c ∧ k.OnlyReady c

end Kernel

namespace Ledger

/-- A step, with the entries for the semaphore `σ`. -/
def step (σ : ℕ) (s : Ledger) : SemOp → Option Ledger
  | .switch t states => some { s with kernel := s.kernel.switch t states }
  | .lock τ => do
    let (k, blocked) ← s.kernel.lockSection τ
    some { s with
      kernel := k, acquired := if τ = σ ∧ blocked = false then s.acquired + 1 else s.acquired }
  | .trylock τ =>
    let (k, taken) := s.kernel.trylock τ
    some { s with
      kernel := k, acquired := if τ = σ ∧ taken = true then s.acquired + 1 else s.acquired }
  | .unlock τ => do
    let k ← s.kernel.unlock τ
    some { s with kernel := k, unlocks := if τ = σ then s.unlocks + 1 else s.unlocks }

/-- Only threads that run take steps, and the value does not overflow. -/
def SemOk (σ v : ℕ) (s : Ledger) : SemOp → Prop
  | .switch _ _ => True
  | .lock _ | .trylock _ => s.kernel.Runs
  | .unlock τ => s.kernel.Runs ∧ (τ = σ → v + s.unlocks + 1 < 2 ^ 31)

/-- The books balance. -/
structure Balanced (σ v : ℕ) (s : Ledger) : Prop where
  val_eq : s.kernel.val σ = v + s.unlocks - s.acquired - (s.kernel.waiters σ).ncard
  acquired_le : s.acquired ≤ v + s.unlocks
  no_permit : (s.kernel.waiters σ).Nonempty → s.kernel.val σ < 0
  blkTaskCount_eq : s.kernel.blkTaskCount σ = (s.kernel.waiters σ).ncard

end Ledger

namespace Kernel

variable {k k' : Kernel} {R : Hdr → Cycle Node} {c t : Tid} {σ τ : ℕ}

/-! ## The sections -/

theorem Shape.mem_waiters (hs : Shape k R) : t ∈ k.waiters σ ↔ .thread t ∈ R (.waiters σ) :=
  hs.onList_iff

theorem ncard_waiters_le (k : Kernel) (σ : ℕ) : (k.waiters σ).ncard ≤ 2 ^ 16 := by
  simpa using Set.ncard_le_card (k.waiters σ)

theorem Runs.congr (h : k.Runs) (hl : k'.links = k.links) (hc : k'.curThread = k.curThread) :
    k'.Runs := by
  obtain ⟨c, hcur, hready⟩ := h
  refine ⟨c, hc.trans hcur, fun j hj => hready j ?_⟩
  rwa [OnList, hl] at hj

theorem Booted.runs (h : Booted k R c) : k.Runs :=
  ⟨c, h.curThread, h.shape.onlyReady_iff.2 fun _ hj => ⟨_, h.shape.rings.disjoint hj h.linked⟩⟩

/-- A caller without a permit becomes a waiter. -/
theorem Shape.lockSection_blocks (hs : Shape k R) (hruns : k.Runs) (hblocks : k.Blocks τ) {x}
    (hx : k.lockSection τ = some x) :
    x.2 = true ∧ (∃ R', Shape x.1 R') ∧ x.1.val = (k.decVal τ).val ∧
      ∃ c, c ∉ k.waiters τ ∧ x.1.waiters τ = insert c (k.waiters τ) ∧
        ∀ σ, σ ≠ τ → x.1.waiters σ = k.waiters σ := by
  obtain ⟨c, hcur, hready⟩ := hruns
  obtain ⟨p, hc⟩ : ∃ p, .thread c ∈ R (.ready p) := by
    have hs' : Shape (k.decVal τ) R := hs.congr rfl rfl fun _ => rfl
    refine hs'.mem_ready_of_suspend hready fun hnone => ?_
    rw [lockSection_eq, if_pos (show sint (k.val τ - 1) < 0 from hblocks), hcur, hnone] at hx
    cases hx
  obtain ⟨L', R', n, hlock, hs', -, hmem⟩ := hs.lockSection hcur hc hblocks
  obtain rfl : _ = x := Option.some.inj (hlock.symm.trans hx)
  have hno : ∀ σ, .thread c ∉ R (.waiters σ) := fun σ hσ => by
    cases hs.rings.disjoint hc hσ
  refine ⟨rfl, ⟨R', hs'⟩, rfl, c, mt hs.mem_waiters.1 (hno τ), ?_, fun σ hστ => ?_⟩
  · ext t
    rw [hs'.mem_waiters, hmem, Set.mem_insert_iff, hs.mem_waiters]
    by_cases htc : t = c <;> simp [htc]
  · ext t
    rw [hs'.mem_waiters, hmem, hs.mem_waiters]
    constructor
    · rintro (⟨ht, -⟩ | ⟨hστ', -⟩)
      exacts [ht, absurd (Hdr.waiters.inj hστ') hστ]
    · refine fun ht => .inl ⟨ht, ?_⟩
      rintro ⟨⟩
      exact hno σ ht

theorem incVal_val_of_ne (h : τ ≠ σ) : (k.incVal σ).val τ = k.val τ := Function.update_of_ne h ..

theorem incVal_val (k : Kernel) (σ : ℕ) : (k.incVal σ).val σ = sint (k.val σ + 1) :=
  Function.update_self ..

theorem sint_add_sint (m n : ℤ) : sint (sint m + n) = sint (m + n) := by
  simp only [sint]
  omega

/-- The waiters after one of them has been woken; a current thread that runs goes on. -/
theorem Shape.wakeOne_waiters (hs : Shape k R) (ht : t ∈ k.waiters σ) :
    ∃ k' R', k.wakeOne σ (.thread t) = some k' ∧ Shape k' R' ∧ k'.val = (k.incVal σ).val ∧
      (k.Runs → k'.Runs) ∧ (k'.waiters σ).ncard + 1 = (k.waiters σ).ncard ∧
      ∀ τ, τ ≠ σ → k'.waiters τ = k.waiters τ := by
  obtain ⟨k', R', hk', hs', hval, hcur, hmem⟩ := hs.wakeOne_mem (hs.mem_waiters.1 ht)
  have hdiff : ∀ τ, k'.waiters τ = k.waiters τ \ {t} := by
    intro τ
    ext u
    rw [hs'.mem_waiters, hmem _ (by simp), Set.mem_sdiff, hs.mem_waiters]
    simp
  refine ⟨k', R', hk', hs', hval, fun ⟨c, hc, hready⟩ => ⟨c, hcur.trans hc, ?_⟩, ?_, fun τ hτ => ?_⟩
  · refine hs'.onlyReady_iff.2 fun j hj => ?_
    by_contra hno
    exact hno (hs.onlyReady_iff.1 hready _ ((hmem j (by simpa using hno) _).1 hj).1)
  · rw [hdiff]
    exact Set.ncard_sdiff_singleton_add_one ht
  · rw [hdiff]
    refine Set.sdiff_singleton_eq_self fun htτ => hτ ?_
    exact Hdr.waiters.inj (hs.rings.disjoint (hs.mem_waiters.1 htτ) (hs.mem_waiters.1 ht))

/-- Waking all waiters gives back what they have taken off the value, in 32 bits. -/
theorem Shape.unlock_sint (hs : Shape k R) :
    ∃ k', k.unlock σ = some k' ∧ (∃ R', Shape k' R') ∧ k'.waiters σ = ∅ ∧ (k.Runs → k'.Runs) ∧
      (∀ τ, τ ≠ σ → k'.val τ = k.val τ ∧ k'.waiters τ = k.waiters τ) ∧
      k'.val σ = sint (k.val σ + 1 + (k.waiters σ).ncard) := by
  -- Each waiter off the list is one more in the value.
  obtain ⟨k', hk', ⟨R', hs', hruns, hother, hle, hval⟩, hno⟩ := unlock_rule (k := k) (σ := σ)
    (I := fun k' => ∃ R', Shape k' R' ∧ (k.Runs → k'.Runs) ∧
      (∀ τ, τ ≠ σ → k'.val τ = k.val τ ∧ k'.waiters τ = k.waiters τ) ∧
      (k'.waiters σ).ncard ≤ (k.waiters σ).ncard ∧
      k'.val σ = sint (k.val σ + 1 + ((k.waiters σ).ncard - (k'.waiters σ).ncard)))
    (fun ⟨R, h, _⟩ => ⟨R, h⟩) (fun {k₁ k₂ t} ⟨R₁, hs₁, hruns₁, hother₁, hle₁, hval₁⟩ ht hwake => by
      obtain ⟨k', R₂, hk', hs₂, hval, hruns₂, hcard, hother₂⟩ := hs₁.wakeOne_waiters ht
      obtain rfl : k' = k₂ := Option.some.inj (hk'.symm.trans hwake)
      refine ⟨R₂, hs₂, hruns₂ ∘ hruns₁, fun τ hτ => ⟨?_, ?_⟩, by omega, ?_⟩
      · rw [hval, incVal_val_of_ne hτ, (hother₁ τ hτ).1]
      · rw [hother₂ τ hτ, (hother₁ τ hτ).2]
      · rw [hval, incVal_val, hval₁, sint_add_sint]
        congr 1
        omega)
    ⟨R, hs.congr rfl rfl fun _ => rfl, fun h => h.congr rfl rfl,
      fun τ hτ => ⟨incVal_val_of_ne hτ, rfl⟩, le_rfl, by
        rw [incVal_val]
        change _ = sint (_ + (((k.waiters σ).ncard : ℤ) - (k.waiters σ).ncard))
        rw [sub_self, add_zero]⟩
  have hempty : k'.waiters σ = ∅ := Set.eq_empty_of_forall_notMem hno
  refine ⟨k', hk', ⟨R', hs'⟩, hempty, hruns, hother, ?_⟩
  rwa [hempty, Set.ncard_empty, Nat.cast_zero, sub_zero] at hval

theorem Shape.unlock (hs : Shape k R) :
    ∃ k', k.unlock σ = some k' ∧ (∃ R', Shape k' R') ∧ k'.waiters σ = ∅ ∧
      (∀ τ, τ ≠ σ → k'.val τ = k.val τ ∧ k'.waiters τ = k.waiters τ) ∧
      (-2 ^ 31 ≤ k.val σ → k.val σ + 1 + (k.waiters σ).ncard < 2 ^ 31 →
        k'.val σ = k.val σ + 1 + (k.waiters σ).ncard) := by
  obtain ⟨k', hk', hs', hempty, -, hother, hval⟩ := hs.unlock_sint (σ := σ)
  exact ⟨k', hk', hs', hempty, hother, fun hlow hhigh => hval.trans (sint_eq (by omega) hhigh)⟩

end Kernel

namespace Ledger

variable {s s' : Ledger} {R : Hdr → Cycle Node} {σ v : ℕ}

/-! ## The invariant -/

/-- Counting the waiters in, no permit is missing; while there are waiters, there is none. -/
structure Inv (σ v : ℕ) (s : Ledger) : Prop where
  shape : ∃ R, s.kernel.Shape R
  val_eq : s.kernel.val σ + (s.kernel.waiters σ).ncard = v + s.unlocks - s.acquired
  nonneg : 0 ≤ s.kernel.val σ + (s.kernel.waiters σ).ncard
  exact : (s.kernel.waiters σ).Nonempty → s.kernel.val σ + (s.kernel.waiters σ).ncard = 0
  bound : v + s.unlocks < 2 ^ 31

theorem Inv.balanced (h : Inv σ v s) : Balanced σ v s := by
  have hval := h.val_eq
  have hnonneg := h.nonneg
  have hno : (s.kernel.waiters σ).Nonempty → s.kernel.val σ < 0 := fun hne => by
    have := (Set.ncard_pos).2 hne
    have := h.exact hne
    omega
  refine ⟨by omega, by omega, hno, ?_⟩
  rw [Kernel.blkTaskCount]
  rcases (s.kernel.waiters σ).eq_empty_or_nonempty with hempty | hne
  · rw [hempty, Set.ncard_empty] at hnonneg ⊢
    rw [if_pos (by omega)]
    rfl
  · have := hno hne
    have := h.exact hne
    have := s.kernel.ncard_waiters_le σ
    rw [if_neg (by omega), sint_eq (by omega) (by omega)]
    omega

theorem Inv.val_bounds (h : Inv σ v s) :
    -2 ^ 16 ≤ s.kernel.val σ ∧ s.kernel.val σ < 2 ^ 31 := by
  have := h.val_eq
  have := h.nonneg
  have := h.bound
  have := s.kernel.ncard_waiters_le σ
  omega

/-- Only the lists and the value of the semaphore matter. -/
theorem Inv.congr {k : Kernel} (h : Inv σ v s) (hs : ∃ R, k.Shape R)
    (hval : k.val σ = s.kernel.val σ) (hw : k.waiters σ = s.kernel.waiters σ) :
    Inv σ v { s with kernel := k } :=
  ⟨hs, by rw [hval, hw]; exact h.val_eq, by rw [hval, hw]; exact h.nonneg,
    by rw [hval, hw]; exact h.exact, h.bound⟩

/-- A permit is acquired, if there is one. -/
theorem Inv.acquire {k : Kernel} (h : Inv σ v s) (hs : ∃ R, k.Shape R) (hpos : 0 < s.kernel.val σ)
    (hval : k.val σ = sint (s.kernel.val σ - 1)) (hw : k.waiters σ = s.kernel.waiters σ) :
    Inv σ v { s with kernel := k, acquired := s.acquired + 1 } := by
  obtain ⟨-, hlt⟩ := h.val_bounds
  have h₁ := h.val_eq
  have h₂ := h.nonneg
  have hempty : s.kernel.waiters σ = ∅ := by
    by_contra hne
    have := h.balanced.no_permit (Set.nonempty_iff_ne_empty.2 hne)
    omega
  rw [sint_eq (by omega) (by omega)] at hval
  rw [hempty] at hw h₁ h₂
  refine ⟨hs, ?_, ?_, fun hne => ?_, h.bound⟩
  · simp only [hval, hw, Set.ncard_empty] at h₁ ⊢
    omega
  · simp only [hval, hw, Set.ncard_empty] at h₂ ⊢
    omega
  · rw [hw] at hne
    exact absurd hne Set.not_nonempty_empty

/-- The current thread waits for the semaphore: there was no permit. -/
theorem Inv.block {k : Kernel} {c : Tid} (h : Inv σ v s) (hs : ∃ R, k.Shape R)
    (hblocks : s.kernel.Blocks σ) (hval : k.val σ = sint (s.kernel.val σ - 1))
    (hc : c ∉ s.kernel.waiters σ) (hw : k.waiters σ = insert c (s.kernel.waiters σ)) :
    Inv σ v { s with kernel := k } := by
  obtain ⟨hge, hlt⟩ := h.val_bounds
  have hsint : sint (s.kernel.val σ - 1) = s.kernel.val σ - 1 := sint_eq (by omega) (by omega)
  have hcard : (k.waiters σ).ncard = (s.kernel.waiters σ).ncard + 1 := by
    rw [hw, Set.ncard_insert_of_notMem hc]
  have hzero : s.kernel.val σ + (s.kernel.waiters σ).ncard = 0 := by
    rcases (s.kernel.waiters σ).eq_empty_or_nonempty with hempty | hne
    · have := h.nonneg
      rw [Kernel.Blocks, hsint] at hblocks
      rw [hempty, Set.ncard_empty] at this ⊢
      omega
    · exact h.exact hne
  have := h.val_eq
  rw [hsint] at hval
  exact ⟨hs, by simp only [hval, hcard]; omega, by simp only [hval, hcard]; omega,
    fun _ => by simp only [hval, hcard]; omega, h.bound⟩

/-- All waiters are woken. -/
theorem Inv.wake {k : Kernel} (h : Inv σ v s) (hs : ∃ R, k.Shape R)
    (hbound : v + s.unlocks + 1 < 2 ^ 31)
    (hval : k.val σ = s.kernel.val σ + 1 + (s.kernel.waiters σ).ncard) (hw : k.waiters σ = ∅) :
    Inv σ v { s with kernel := k, unlocks := s.unlocks + 1 } := by
  have h₁ := h.val_eq
  have h₂ := h.nonneg
  refine ⟨hs, ?_, ?_, fun hne => ?_, ?_⟩
  · simp only [hval, hw, Set.ncard_empty]
    omega
  · simp only [hval, hw, Set.ncard_empty]
    omega
  · rw [hw] at hne
    exact absurd hne Set.not_nonempty_empty
  · exact hbound

/-- A permit is taken, of this semaphore or of another one. -/
theorem Inv.take {τ : ℕ} (h : Inv σ v s) (hpos : τ = σ → 0 < s.kernel.val σ) :
    Inv σ v { s with
      kernel := s.kernel.decVal τ
      acquired := if τ = σ then s.acquired + 1 else s.acquired } := by
  obtain ⟨R, hs⟩ := h.shape
  have hshape : ∃ R, (s.kernel.decVal τ).Shape R := ⟨R, hs.congr rfl rfl fun _ => rfl⟩
  by_cases hτ : τ = σ
  · subst hτ
    rw [if_pos rfl]
    exact h.acquire hshape (hpos rfl) (Kernel.decVal_val ..) rfl
  · rw [if_neg hτ]
    exact h.congr hshape (Function.update_of_ne (Ne.symm hτ) ..) rfl

theorem Inv.step {op : SemOp} (h : Inv σ v s) (hok : SemOk σ v s op)
    (hstep : s.step σ op = some s') : Inv σ v s' := by
  obtain ⟨R, hs⟩ := h.shape
  cases op with
  | switch t states =>
    rw [← Option.some.inj hstep]
    refine h.congr ⟨R, hs.congr rfl rfl fun _ => rfl⟩ rfl rfl
  | lock τ =>
    obtain ⟨x, hx, hs'⟩ := Option.bind_eq_some_iff.1 hstep
    obtain rfl := Option.some.inj hs'
    by_cases hblocks : s.kernel.Blocks τ
    · obtain ⟨hx₂, hshape, hval, c, hc, hw, hother⟩ := hs.lockSection_blocks hok hblocks hx
      have hval : ∀ σ, x.1.val σ = (s.kernel.decVal τ).val σ := fun σ => congrFun hval σ
      rw [hx₂, if_neg (by simp)]
      by_cases hτ : τ = σ
      · subst hτ
        exact h.block hshape hblocks ((hval τ).trans (Kernel.decVal_val ..)) hc hw
      · exact h.congr hshape ((hval σ).trans (Function.update_of_ne (Ne.symm hτ) ..))
          (hother σ (Ne.symm hτ))
    · rw [Kernel.lockSection_of_nonneg (not_lt.1 hblocks)] at hx
      obtain rfl := Option.some.inj hx
      have hpos : τ = σ → 0 < s.kernel.val σ := by
        rintro rfl
        -- In its bounds the value goes down by one, and is still not negative.
        obtain ⟨hge, hlt⟩ := h.val_bounds
        rw [Kernel.Blocks, sint_eq (by omega) (by omega)] at hblocks
        omega
      simpa using h.take hpos
  | trylock τ =>
    by_cases hpos : 0 < s.kernel.val τ
    · rw [Ledger.step, Kernel.trylock_of_pos hpos] at hstep
      obtain rfl := Option.some.inj hstep
      simpa using h.take fun hτ => hτ ▸ hpos
    · rw [Ledger.step, Kernel.trylock_of_not_pos hpos] at hstep
      obtain rfl := Option.some.inj hstep
      rw [if_neg (by simp)]
      exact h
  | unlock τ =>
    obtain ⟨k, hk, hs'⟩ := Option.bind_eq_some_iff.1 hstep
    obtain rfl := Option.some.inj hs'
    obtain ⟨k', hk', hshape, hempty, hother, hval⟩ := hs.unlock (σ := τ)
    obtain rfl : k' = k := Option.some.inj (hk'.symm.trans hk)
    by_cases hτ : τ = σ
    · subst hτ
      have hbound := hok.2 rfl
      have h₁ := h.val_eq
      obtain ⟨hge, -⟩ := h.val_bounds
      simp only [if_true]
      exact h.wake hshape hbound (hval (by omega) (by omega)) hempty
    · simp only [hτ, if_false]
      exact h.congr hshape (hother σ (Ne.symm hτ)).1 (hother σ (Ne.symm hτ)).2

/-! ## Runs -/

/-- In every state of such a run, the books balance. -/
theorem balanced_of_run {k₀ : Kernel} (hs : k₀.Shape R) (hw : ∀ t, ¬k₀.OnList (.waiters σ) t)
    (hv : k₀.val σ = v) (hbound : v < 2 ^ 31)
    (hrun : Run (step σ) (SemOk σ v) ⟨k₀, 0, 0⟩ s) : Balanced σ v s := by
  have hempty : k₀.waiters σ = ∅ := Set.eq_empty_of_forall_notMem hw
  have h₀ : Inv σ v ⟨k₀, 0, 0⟩ := by
    refine ⟨⟨R, hs⟩, ?_, ?_, fun hne => ?_, hbound⟩
    · simp [hempty, hv]
    · simp [hempty, hv]
    · rw [hempty] at hne
      exact absurd hne Set.not_nonempty_empty
  exact (hrun.invariant (I := Inv σ v) (fun h hok hstep => h.step hok hstep) h₀).balanced

/-- Without a permit, the running idle thread becomes a waiter. -/
theorem balanced_after_lock :
    ∃ k₀ s, Kernel.boot (fun _ => 0) Kernel.noThread (fun _ => 0) = some k₀ ∧
      Run (step 0) (SemOk 0 0) ⟨k₀, 0, 0⟩ s ∧ (s.kernel.waiters 0).Nonempty ∧ Balanced 0 0 s := by
  have hrun : ((Kernel.boot (fun _ => 0) Kernel.noThread fun _ => 0).bind fun k₀ =>
      (step 0 ⟨k₀, 0, 0⟩ (.lock 0)).map fun s => decide
        (k₀.val 0 = 0 ∧ s.kernel.links.next (.hdr (.waiters 0)) = some (.thread 1))) =
          some true := by
    decide +kernel
  obtain ⟨k₀, hboot, hrun⟩ := Option.bind_eq_some_iff.1 hrun
  obtain ⟨s, hs, hfields⟩ := Option.map_eq_some_iff.1 hrun
  obtain ⟨hval, hwaits⟩ := of_decide_eq_true hfields
  obtain ⟨R, c, hb⟩ := Kernel.booted_of_boot hboot
  have hrun : Run (step 0) (SemOk 0 0) ⟨k₀, 0, 0⟩ s := Run.refl.tail (i := .lock 0) hb.runs hs
  exact ⟨k₀, s, hboot, hrun, ⟨1, .single hwaits⟩, balanced_of_run hb.shape
    (fun t ht => hb.no_waiters 0 t (hb.shape.onList_iff.1 ht)) hval (by decide) hrun⟩

/-- The largest value overflows at the next call to `unlock`. -/
theorem not_balanced_of_overflow :
    ∃ k₀ s, Kernel.boot (fun _ => 0) Kernel.noThread (fun _ => 2 ^ 31 - 1) = some k₀ ∧
      k₀.val 0 = 2 ^ 31 - 1 ∧ (∀ t, ¬k₀.OnList (.waiters 0) t) ∧ k₀.Runs ∧
      step 0 ⟨k₀, 0, 0⟩ (.unlock 0) = some s ∧ s.kernel.val 0 = -2 ^ 31 ∧
      ¬Balanced 0 (2 ^ 31 - 1) s := by
  have hrun : ((Kernel.boot (fun _ => 0) Kernel.noThread fun _ => 2 ^ 31 - 1).bind fun k₀ =>
      (step 0 ⟨k₀, 0, 0⟩ (.unlock 0)).map fun s => decide
        (k₀.val 0 = 2 ^ 31 - 1 ∧ s.kernel.val 0 = -2 ^ 31 ∧ s.unlocks = 1 ∧ s.acquired = 0)) =
          some true := by
    decide +kernel
  obtain ⟨k₀, hboot, hrun⟩ := Option.bind_eq_some_iff.1 hrun
  obtain ⟨s, hs, hfields⟩ := Option.map_eq_some_iff.1 hrun
  obtain ⟨hval₀, hval, hunlocks, hacquired⟩ := of_decide_eq_true hfields
  obtain ⟨R, c, hb⟩ := Kernel.booted_of_boot hboot
  refine ⟨k₀, s, hboot, hval₀, fun t ht => hb.no_waiters 0 t (hb.shape.onList_iff.1 ht),
    hb.runs, hs, hval, fun h => ?_⟩
  have heq := h.val_eq
  have := s.kernel.ncard_waiters_le 0
  rw [hval, hunlocks, hacquired] at heq
  omega

end Ledger

end DemoOs
